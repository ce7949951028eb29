import Stencil.Proofs.Demands

/-!
# Assembly is meeting demands and then reading

With the table of what the links gave, the value of a draft and the entries of its
map can be read off, and nothing is asked for any more. This file defines that
reading and proves that assembly is the same as meeting all demands first and
reading afterwards.

The induction goes through the draft. A part is assembled with the table as it is
by then, and read with the table as it is at the end; the two agree, because a
reading only looks at directives that were demanded, and what the table knows about
these does not change any more.
-/

namespace Stencil

/-- What each directive stands for. -/
abbrev Look := Directive → Json × Option SourceMap

/-- The text of the pieces of a string. -/
def Piece.read (look : Look) : List Piece → List Char
  | [] => []
  | .char c :: rest => c :: read look rest
  | .variable d :: rest => (look d).1.inlineText ++ read look rest

/-- The members of a value, if it is an object. -/
def Json.membersOf : Json → List (String × Json)
  | .object members => members
  | _ => []

mutual

/-- The value of a node. -/
def Node.read (look : Look) : Node → Json
  | .scalar value => value
  | .text pieces => .string (String.ofList (Piece.read look pieces))
  | .directive d => (look d).1
  | .array elements => .array (elements.read look)
  | .object members => .object (members.read look)
  | .broken _ => .null

/-- The items of an array. -/
def Elements.read (look : Look) : Elements → List Json
  | .none => []
  | .add earlier _ node =>
      if node.isBroken then earlier.read look else earlier.read look ++ [node.read look]

/-- The members of an object. -/
def Members.read (look : Look) : Members → List (String × Json)
  | .none => []
  | .add earlier _ key node =>
      if node.isBroken then earlier.read look
      else
        Assoc.insert (String.ofList (Piece.read look key)) (node.read look) (earlier.read look)
  | .spread earlier d =>
      (look d).1.membersOf.foldl (fun list m => Assoc.insert m.1 m.2 list) (earlier.read look)

end

/-- The entries that the members of a spread value bring along. -/
def Scope.spreadEntries (path : Path) (p : Pointer) (d : Directive) :
    Json × Option SourceMap → List Entry
  | (.object _, some map) => map.moved p
  | (.object members, none) =>
      members.map fun m => (p.key m.1, .ofLocation path.text d.range.first d.kind)
  | _ => []

mutual

/-- The entries of what is inside a node at `p`. -/
def Node.entries (path : Path) (look : Look) (p : Pointer) : Node → List Entry
  | .directive d => movedEntries p (look d).2
  | .array elements => elements.entries path look p
  | .object members => members.entries path look p
  | .scalar _ | .text _ | .broken _ => []

/-- All entries inside an array at `p`. -/
def Elements.entries (path : Path) (look : Look) (p : Pointer) : Elements → List Entry
  | .none => []
  | .add earlier place node =>
      if node.isBroken then earlier.entries path look p
      else
        let child := p.index (earlier.read look).length
        earlier.entries path look p ++ node.entries path look child ++
          [(child, .ofLocation path.text place node.kind)]

/-- All entries inside an object at `p`. -/
def Members.entries (path : Path) (look : Look) (p : Pointer) : Members → List Entry
  | .none => []
  | .add earlier place key node =>
      if node.isBroken then earlier.entries path look p
      else
        let child := p.key (String.ofList (Piece.read look key))
        earlier.entries path look p ++ node.entries path look child ++
          [(child, .ofLocation path.text place .literal)]
  | .spread earlier d => earlier.entries path look p ++ Scope.spreadEntries path p d (look d)

end

def Draft.read (look : Look) (draft : Draft) : Json :=
  match draft.body with
  | none => .null
  | some (_, node) => node.read look

/-- All entries of the map of a template. -/
def Draft.entries (path : Path) (look : Look) (draft : Draft) : List Entry :=
  match draft.body with
  | none => []
  | some (place, node) =>
      node.entries path look .root ++ [(Pointer.root, .ofLocation path.text place node.kind)]

/-! ## A reading looks at demanded directives only -/

/-- Whether two looks agree on the directives of some demands. -/
def Look.Agree (look look' : Look) (demands : List Demand) : Prop :=
  ∀ demand ∈ demands, ∀ d, demand.directive? = some d → look d = look' d

/-- Whether two looks see the same values at the directives of some demands. -/
def Look.AgreeOnValues (look look' : Look) (demands : List Demand) : Prop :=
  ∀ demand ∈ demands, ∀ d, demand.directive? = some d → (look d).1 = (look' d).1

section Agreement

variable {look look' : Look} {first second : List Demand}

theorem Look.Agree.left (h : look.Agree look' (first ++ second)) : look.Agree look' first :=
  fun demand hmem => h demand (List.mem_append_left _ hmem)

theorem Look.Agree.right (h : look.Agree look' (first ++ second)) : look.Agree look' second :=
  fun demand hmem => h demand (List.mem_append_right _ hmem)

theorem Look.Agree.values {demands : List Demand} (h : look.Agree look' demands) :
    look.AgreeOnValues look' demands :=
  fun demand hmem d hd => congrArg Prod.fst (h demand hmem d hd)

theorem Look.AgreeOnValues.left (h : look.AgreeOnValues look' (first ++ second)) :
    look.AgreeOnValues look' first :=
  fun demand hmem => h demand (List.mem_append_left _ hmem)

theorem Look.AgreeOnValues.right (h : look.AgreeOnValues look' (first ++ second)) :
    look.AgreeOnValues look' second :=
  fun demand hmem => h demand (List.mem_append_right _ hmem)

theorem Piece.read_congr {pieces : List Piece}
    (h : look.AgreeOnValues look' (Piece.demands pieces)) :
    Piece.read look pieces = Piece.read look' pieces := by
  induction pieces with
  | nil => rfl
  | cons piece rest ih =>
      match piece with
      | .char c => simp only [Piece.read, ih h]
      | .variable d =>
          have hd : (look d).1 = (look' d).1 := h (.value d) (by simp [Piece.demands]) d rfl
          have hrest : look.AgreeOnValues look' (Piece.demands rest) :=
            fun demand hmem => h demand (List.mem_cons_of_mem _ hmem)
          simp only [Piece.read, hd, ih hrest]

mutual

theorem Node.read_congr (node : Node) (h : look.AgreeOnValues look' node.demands) :
    node.read look = node.read look' := by
  match node with
  | .scalar _ | .broken _ => rfl
  | .text pieces => simp only [Node.read, Piece.read_congr h]
  | .directive d =>
      have hd : (look d).1 = (look' d).1 := h (.value d) (by simp [Node.demands]) d rfl
      simp only [Node.read, hd]
  | .array elements => simp only [Node.read, Elements.read_congr elements h]
  | .object members => simp only [Node.read, Members.read_congr members h]

theorem Elements.read_congr (elements : Elements)
    (h : look.AgreeOnValues look' elements.demands) :
    elements.read look = elements.read look' := by
  match elements with
  | .none => rfl
  | .add earlier _ node =>
      simp only [Elements.read, Elements.read_congr earlier h.left, Node.read_congr node h.right]

theorem Members.read_congr (members : Members) (h : look.AgreeOnValues look' members.demands) :
    members.read look = members.read look' := by
  match members with
  | .none => rfl
  | .add earlier _ key node =>
      simp only [Members.read, Members.read_congr earlier h.left,
        Piece.read_congr h.right.left, Node.read_congr node h.right.right]
  | .spread earlier d =>
      have hd : (look d).1 = (look' d).1 := h.right (.members d) (by simp) d rfl
      simp only [Members.read, Members.read_congr earlier h.left, hd]

end

theorem Draft.read_congr (draft : Draft) (h : look.AgreeOnValues look' draft.bodyDemands) :
    draft.read look = draft.read look' := by
  obtain ⟨leading, body, trailing, fault⟩ := draft
  cases body with
  | none => rfl
  | some start => exact Node.read_congr start.2 h

/-- A look by which directives that say the same stand for the same. -/
def Look.ofMeaning (f : Directive.Meaning → Json) : Look := fun d => (f d.meaning, none)

variable (path : Path)

mutual

theorem Node.entries_congr (p : Pointer) (node : Node) (h : look.Agree look' node.demands) :
    node.entries path look p = node.entries path look' p := by
  match node with
  | .scalar _ | .text _ | .broken _ => rfl
  | .directive d =>
      have hd : look d = look' d := h (.value d) (by simp [Node.demands]) d rfl
      simp only [Node.entries, hd]
  | .array elements => exact Elements.entries_congr p elements h
  | .object members => exact Members.entries_congr p members h

theorem Elements.entries_congr (p : Pointer) (elements : Elements)
    (h : look.Agree look' elements.demands) :
    elements.entries path look p = elements.entries path look' p := by
  match elements with
  | .none => rfl
  | .add earlier _ node =>
      simp only [Elements.entries, Elements.read_congr earlier h.left.values,
        Elements.entries_congr p earlier h.left, Node.entries_congr _ node h.right]

theorem Members.entries_congr (p : Pointer) (members : Members)
    (h : look.Agree look' members.demands) :
    members.entries path look p = members.entries path look' p := by
  match members with
  | .none => rfl
  | .add earlier _ key node =>
      simp only [Members.entries, Members.entries_congr p earlier h.left,
        Piece.read_congr h.right.left.values, Node.entries_congr _ node h.right.right]
  | .spread earlier d =>
      have hd : look d = look' d := h.right (.members d) (by simp) d rfl
      simp only [Members.entries, Members.entries_congr p earlier h.left, hd]

end

theorem Draft.entries_congr (draft : Draft) (h : look.Agree look' draft.bodyDemands) :
    draft.entries path look = draft.entries path look' := by
  obtain ⟨leading, body, trailing, fault⟩ := draft
  cases body with
  | none => rfl
  | some start => exact congrArg (· ++ _) (Node.entries_congr path .root start.2 h)

end Agreement

/-- A later table reads like an earlier one that has met the demands. -/
theorem Scope.seen_agree {s : Scope} {t u : Table} (demands : List Demand) (w : Watch)
    (h : (s.meetAll t demands w).value.Extends u) :
    Look.Agree (s.seen u) (s.seen (s.meetAll t demands w).value) demands :=
  fun _ hmem _ hd => (Scope.knows_meetAll hmem hd t w).seen_eq h

/-! ## The factorization -/

theorem Work.pure_apply (a : α) (t : Table) (w : Watch) :
    (pure a : Work α) t w = ⟨(a, t), .empty, w⟩ := rfl

theorem Work.bind_apply (m : Work α) (next : α → Work β) (t : Table) (w : Watch) :
    (m >>= next) t w =
      let first := m t w
      let second := next first.value.1 first.value.2 first.watch
      ⟨second.value, first.ledger ++ second.ledger, second.watch⟩ := rfl

/-- Whether a part of an assembly amounts to meeting some demands and then reading. -/
def Scope.Reads (s : Scope) (m : Work α) (demands : List Demand) (r : Look → α) : Prop :=
  ∀ t w, m t w =
    ⟨(r (s.seen (s.meetAll t demands w).value), (s.meetAll t demands w).value),
      (s.meetAll t demands w).ledger, (s.meetAll t demands w).watch⟩

namespace Scope

variable {s : Scope}

theorem reads_pure (a : α) : s.Reads (pure a) [] fun _ => a := fun _ _ => rfl

/-- One part after another; what the first part read still holds after the second. -/
theorem Reads.bind {m : Work α} {next : α → Work β} {first second : List Demand}
    {r : Look → α} {q : α → Look → β} (hm : s.Reads m first r)
    (hr : ∀ look look' : Look, look.Agree look' first → r look = r look')
    (hnext : ∀ x, s.Reads (next x) second (q x)) :
    s.Reads (m >>= next) (first ++ second) fun look => q (r look) look := by
  intro t w
  have hkeep := hr _ _ (seen_agree first w
    (s.extends_meetAll (s.meetAll t first w).value second (s.meetAll t first w).watch))
  rw [Work.bind_apply, hm t w]
  simp only [hnext _ _ _, meetAll_append, hkeep]

theorem Reads.map {m : Work α} {next : α → Work β} {demands : List Demand} {r : Look → α}
    {f : α → β} (hm : s.Reads m demands r) (hnext : ∀ x, next x = pure (f x)) :
    s.Reads (m >>= next) demands fun look => f (r look) := by
  intro t w
  rw [Work.bind_apply, hm t w]
  simp only [hnext, Work.pure_apply, Ledger.append_empty]

theorem Reads.congr {m : Work α} {demands : List Demand} {r r' : Look → α}
    (hm : s.Reads m demands r) (h : ∀ look, r look = r' look) : s.Reads m demands r' := by
  have : r = r' := funext h
  exact this ▸ hm

theorem get_apply (t : Table) (w : Watch) : (get : Work Table) t w = ⟨(t, t), .empty, w⟩ := rfl

theorem modify_apply (f : Table → Table) (t : Table) (w : Watch) :
    (modify f : Work PUnit) t w = ⟨(⟨⟩, f t), .empty, w⟩ := rfl

theorem lift_apply (m : Run α) (t : Table) (w : Watch) :
    (liftM m : Work α) t w = ⟨((m w).value, t), (m w).ledger ++ .empty, (m w).watch⟩ := rfl

theorem settle_known {d : Directive} {link : Link} {t : Table} {a : Assembled}
    (ha : Assoc.find? d.number t = some a) (w : Watch) :
    s.settle d link t w = ⟨(a, t), .empty, w⟩ := by
  rw [settle, Work.bind_apply, get_apply]
  simp only [ha, Work.pure_apply, Ledger.append_empty]

theorem settle_new {d : Directive} {link : Link} {t : Table}
    (ha : Assoc.find? d.number t = none) (w : Watch) :
    s.settle d link t w =
      ⟨((s.follow d link w).value, Assoc.insert d.number (s.follow d link w).value t),
        (s.follow d link w).ledger, (s.follow d link w).watch⟩ := by
  rw [settle, Work.bind_apply, get_apply]
  simp only [ha, Work.bind_apply, lift_apply, modify_apply, Work.pure_apply,
    Ledger.append_empty, Ledger.empty_append]

theorem settle_reads {d e : Directive} {link : Link} (h : s.linkOf? d = some (e, link)) (t : Table)
    (w : Watch) : s.settle e link t w =
      ⟨((Assoc.find? e.number (s.learn t d w).value).getD .nothing, (s.learn t d w).value),
        (s.learn t d w).ledger, (s.learn t d w).watch⟩ := by
  cases ha : Assoc.find? e.number t with
  | some a => rw [settle_known ha, learn_known h ha]; simp [ha]
  | none => rw [settle_new ha, learn_new h ha]; simp [Assoc.find?_insert]

theorem resolve_eq (d : Directive) :
    s.resolve d =
      match s.linkOf? d with
      | some (e, link) => s.settle e link >>= fun a => pure (a.value, some a.map)
      | none => pure (s.placeholder d, none) := by
  unfold resolve linkOf? placeholder
  match d.meaning with
  | .link link => rfl
  | .variable expression =>
      cases hfind : Assoc.find? (Placeholder.identifier expression) s.names with
      | none => simp only [hfind]
      | some found => simp only [hfind]

theorem reads_resolve (d : Directive) :
    s.Reads (s.resolve d) [.value d] fun look => look d := by
  intro t w
  have hmeet : s.meetAll t [.value d] w = s.learn t d w := by
    simp only [meetAll_cons, meetAll_nil, meet_value, Ledger.append_empty]
  rw [hmeet, resolve_eq]
  cases h : s.linkOf? d with
  | none =>
      rw [learn_none h]
      simp only [Work.pure_apply, seen, h]
  | some found =>
      obtain ⟨e, link⟩ := found
      simp only [Work.bind_apply, settle_reads h, Work.pure_apply, Ledger.append_empty, seen, h]

end Scope

open Scope

/-- What spreading a value does with the members and entries so far. -/
def Scope.spread (s : Scope) (p : Pointer) (d : Directive)
    (sofar : List (String × Json) × List Entry) (x : Json × Option SourceMap) :
    List (String × Json) × List Entry :=
  (x.1.membersOf.foldl (fun list m => Assoc.insert m.1 m.2 list) sofar.1,
    sofar.2 ++ spreadEntries s.path p d x)

theorem Scope.reads_spread {s : Scope} (p : Pointer) (d : Directive)
    (sofar : List (String × Json) × List Entry)
    {next : Json × Option SourceMap → Work (List (String × Json) × List Entry)}
    (hnext : ∀ x, next x =
      if spreadable x then pure (s.spread p d sofar x)
      else do
        Run.report (s.unspreadable x.1 d)
        pure (s.spread p d sofar x)) :
    s.Reads (s.resolve d >>= next) [.members d] fun look => s.spread p d sofar (look d) := by
  intro t w
  have hmeet : s.meetAll t [.value d] w = s.learn t d w := by
    simp only [meetAll_cons, meetAll_nil, meet_value, Ledger.append_empty]
  rw [Work.bind_apply, reads_resolve d t w, hmeet]
  simp only [meetAll_cons, meetAll_nil, meet_members, Ledger.append_empty, hnext, ownProblems]
  split
  · rfl
  · rfl

theorem Piece.reads_assemble (s : Scope) (pieces : List Piece) :
    s.Reads (Piece.assemble s pieces) (Piece.demands pieces)
      fun look => Piece.read look pieces := by
  induction pieces with
  | nil => exact reads_pure []
  | cons piece rest ih =>
      match piece with
      | .char c => exact ih.map fun _ => rfl
      | .variable d =>
          refine Reads.bind (q := fun x look => x.1.inlineText ++ Piece.read look rest)
            (reads_resolve d) ?_ fun x => ?_
          · intro look look' h
            exact h (.value d) (by simp) d rfl
          · exact ih.map fun _ => rfl

mutual

theorem Node.reads_assemble (s : Scope) (p : Pointer) (node : Node) :
    s.Reads (node.assemble s p) node.demands fun look =>
      (node.read look, node.entries s.path look p) := by
  match node with
  | .scalar value => exact reads_pure (value, [])
  | .text pieces => exact (Piece.reads_assemble s pieces).map fun _ => rfl
  | .directive d => exact (reads_resolve d).map fun _ => rfl
  | .array elements => exact (Elements.reads_assemble s p elements).map fun _ => rfl
  | .object members => exact (Members.reads_assemble s p members).map fun _ => rfl
  | .broken pieces => exact (Piece.reads_assemble s pieces).map fun _ => rfl

theorem Elements.reads_assemble (s : Scope) (p : Pointer) (elements : Elements) :
    s.Reads (elements.assemble s p) elements.demands fun look =>
      (elements.read look, elements.entries s.path look p) := by
  match elements with
  | .none => exact reads_pure ([], [])
  | .add earlier place node =>
      refine Reads.congr (Reads.bind (Elements.reads_assemble s p earlier) ?_ fun x =>
        Reads.map (Node.reads_assemble s (p.index x.1.length) node)
          (f := fun y => if node.isBroken then x
            else (x.1 ++ [y.1], x.2 ++ y.2 ++ [(p.index x.1.length, s.origin place node.kind)]))
          fun y => ?_) fun look => ?_
      · intro look look' h
        rw [Elements.read_congr earlier h.values, Elements.entries_congr s.path p earlier h]
      · obtain ⟨items, entries⟩ := x
        obtain ⟨value, inner⟩ := y
        simp only
        split <;> rfl
      · simp only [Elements.read, Elements.entries]
        split <;> rfl

theorem Members.reads_assemble (s : Scope) (p : Pointer) (members : Members) :
    s.Reads (members.assemble s p) members.demands fun look =>
      (members.read look, members.entries s.path look p) := by
  match members with
  | .none => exact reads_pure ([], [])
  | .add earlier place key node =>
      refine Reads.congr (Reads.bind (Members.reads_assemble s p earlier) ?_ fun x =>
        Reads.bind (q := fun text look => if node.isBroken then x
            else (Assoc.insert (String.ofList text) (node.read look) x.1,
              x.2 ++ node.entries s.path look (p.key (String.ofList text)) ++
                [(p.key (String.ofList text), s.origin place .literal)]))
          (Piece.reads_assemble s key) ?_ fun text => ?_) fun look => ?_
      · intro look look' h
        rw [Members.read_congr earlier h.values, Members.entries_congr s.path p earlier h]
      · intro look look' h
        exact Piece.read_congr h.values
      · refine Reads.congr (Reads.map (Node.reads_assemble s (p.key (String.ofList text)) node)
          (f := fun y => if node.isBroken then x
            else (Assoc.insert (String.ofList text) y.1 x.1,
              x.2 ++ y.2 ++ [(p.key (String.ofList text), s.origin place .literal)]))
          fun y => ?_) fun look => ?_
        · obtain ⟨items, entries⟩ := x
          obtain ⟨value, inner⟩ := y
          simp only
          split <;> rfl
        · split <;> rfl
      · simp only [Members.read, Members.entries]
        split <;> rfl
  | .spread earlier d =>
      refine Reads.congr (Reads.bind (Members.reads_assemble s p earlier) ?_ fun x =>
        Scope.reads_spread p d x fun y => ?_) fun look => rfl
      · intro look look' h
        rw [Members.read_congr earlier h.values, Members.entries_congr s.path p earlier h]
      · obtain ⟨list, entries⟩ := x
        obtain ⟨value, map⟩ := y
        cases value <;> cases map <;>
          simp [spreadable, spread, unspreadable, Json.membersOf, spreadEntries, origin]

end

/-! ## Whole templates -/

theorem Scope.reads_resolveAll {s : Scope} (directives : List Directive) :
    s.Reads (forIn directives PUnit.unit fun d _ => do
        let _ ← s.resolve d
        pure (ForInStep.yield PUnit.unit))
      (directives.map .value) fun _ => PUnit.unit := by
  induction directives with
  | nil => exact reads_pure PUnit.unit
  | cons d rest ih =>
      rw [List.forIn_cons, bind_assoc]
      refine Reads.bind (q := fun _ _ => PUnit.unit) (reads_resolve d) ?_ fun _ => ?_
      · intro look look' h
        exact h (.value d) (by simp) d rfl
      · rw [pure_bind]
        exact ih

theorem Scope.reads_fault {s : Scope} (fault : Option FaultAt) :
    s.Reads (match fault with
        | none => pure ()
        | some fault => Run.report (.ofLocation (.fault fault.fault) s.path fault.place))
      (fault.toList.map .fault) fun _ => () := by
  cases fault with
  | none => exact reads_pure ()
  | some fault => exact fun t w => rfl

theorem Draft.reads_body (s : Scope) (draft : Draft) :
    s.Reads (match draft.body with
        | none => pure (Json.null, [])
        | some (place, node) => do
            let (value, entries) ← node.assemble s .root
            pure (value, entries ++ [(Pointer.root, s.origin place node.kind)]))
      draft.bodyDemands fun look => (draft.read look, draft.entries s.path look) := by
  unfold Draft.bodyDemands Draft.read Draft.entries
  match draft.body with
  | none => exact reads_pure (Json.null, [])
  | some (place, node) => exact (Node.reads_assemble s .root node).map fun _ => rfl

/-- Assembly does what meeting the demands does, and gives what can be read afterwards. -/
theorem Draft.reads_assemble (s : Scope) (links : List Directive) (draft : Draft) :
    s.Reads (draft.assemble s links) (draft.demands links) fun look =>
      (draft.read look, draft.entries s.path look) := by
  have hparts : draft.assemble s links = (do
      forIn draft.leading PUnit.unit fun d _ => do
        let _ ← s.resolve d
        pure (ForInStep.yield PUnit.unit)
      let result ← (match draft.body with
        | none => pure (Json.null, [])
        | some (place, node) => do
            let (value, entries) ← node.assemble s .root
            pure (value, entries ++ [(Pointer.root, s.origin place node.kind)]))
      forIn draft.trailing PUnit.unit fun d _ => do
        let _ ← s.resolve d
        pure (ForInStep.yield PUnit.unit)
      (match draft.fault with
        | none => pure ()
        | some fault => Run.report (.ofLocation (.fault fault.fault) s.path fault.place))
      forIn links PUnit.unit fun d _ => do
        let _ ← s.resolve d
        pure (ForInStep.yield PUnit.unit)
      pure result) := by
    unfold Draft.assemble
    cases draft.body <;> cases draft.fault <;> simp
  rw [hparts]
  refine Reads.congr (Reads.bind (reads_resolveAll draft.leading) (fun _ _ _ => rfl) fun _ =>
    Reads.bind (Draft.reads_body s draft) ?_ fun result =>
    Reads.bind (reads_resolveAll draft.trailing) (fun _ _ _ => rfl) fun _ =>
    Reads.bind (reads_fault draft.fault) (fun _ _ _ => rfl) fun _ =>
    (reads_resolveAll links).map (f := fun _ => result) fun _ => rfl) fun look => rfl
  intro look look' h
  rw [Draft.read_congr draft h.values, Draft.entries_congr s.path draft h]

namespace Setting

variable (s : Setting)

def scope (path : Path) (tokens : List Token) (follow : Directive → Link → Run Assembled) :
    Scope :=
  ⟨path, linkNames (Directive.ofTokens 0 tokens), s.options.defaultValues, follow⟩

def counts (tokens : List Token) : Ledger where
  variableCount := tokens.countP fun t => t.kind == .variable
  controlCount := tokens.countP fun t => t.kind == .controlBlock

/-- All demands of a scanned template. -/
def demands (tokens : List Token) : List Demand :=
  (Draft.ofTokens tokens).demands ((Directive.ofTokens 0 tokens).filter Directive.isLink)

/-- What can be read off a template once its links are known. -/
def reading (scope : Scope) (tokens : List Token) (t : Table) : Assembled :=
  ⟨(Draft.ofTokens tokens).read (scope.seen t),
    if s.options.buildSourceMap then
      .ofList ((Draft.ofTokens tokens).entries scope.path (scope.seen t))
    else .empty⟩

theorem assemble_apply (path : Path) (tokens : List Token)
    (follow : Directive → Link → Run Assembled) (w : Watch) :
    s.assemble path tokens follow w =
      let scope := s.scope path tokens follow
      let met := scope.meetAll [] (demands tokens) w
      ⟨s.reading scope tokens met.value, counts tokens ++ met.ledger, met.watch⟩ := by
  have hreads := Draft.reads_assemble (s.scope path tokens follow)
    ((Directive.ofTokens 0 tokens).filter Directive.isLink) (Draft.ofTokens tokens) [] w
  have hparts : s.assemble path tokens follow = (do
      Run.tell (counts tokens)
      let result ← ((Draft.ofTokens tokens).assemble (s.scope path tokens follow)
        ((Directive.ofTokens 0 tokens).filter Directive.isLink)).run []
      return ⟨result.1.1,
        if s.options.buildSourceMap then .ofList result.1.2 else .empty⟩) := rfl
  rw [hparts, Run.bind_apply, Run.tell_apply]
  simp only [StateT.run, Run.bind_apply, hreads, Run.pure_apply, Ledger.append_empty]
  rfl

end Setting

end Stencil
