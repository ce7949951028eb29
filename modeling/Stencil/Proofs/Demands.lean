import Stencil.Extraction

/-!
# What a draft demands

Assembly does two things in one pass: it works out values, and it follows links and
reports problems. Only the second reaches the outside, and it does not depend on the
first. Which directive is looked at next is written in the draft, so the row of
demands of a draft is known before any directive has a value.

This file lists the demands and says what meeting them does. Meeting a demand needs
the table of what the links gave so far, follows at most one link, and writes at most
one problem. The table only grows, and it knows every directive that was demanded;
the rest of the theory needs nothing else about it.
-/

namespace Stencil

theorem Run.tell_apply (ledger : Ledger) (w : Watch) : Run.tell ledger w = ⟨(), ledger, w⟩ := rfl

theorem Run.report_apply (problem : Problem) (w : Watch) :
    Run.report problem w = ⟨(), { problems := [problem] }, w⟩ := rfl

theorem Run.watch_bind (next : Watch → Run α) (w : Watch) : (Run.watch >>= next) w = next w w := by
  simp only [Run.bind_apply, Run.watch, Ledger.empty_append]

theorem Run.ite_apply (c : Prop) [Decidable c] (m m' : Run α) (w : Watch) :
    (if c then m else m') w = if c then m w else m' w := by
  split <;> rfl

/-- One thing that an assembly asks for. -/
inductive Demand where
  /-- What a directive stands for. -/
  | value (d : Directive)
  /-- The members of what a directive stands for. -/
  | members (d : Directive)
  /-- A place among the problems for a fault of the template itself. -/
  | fault (f : FaultAt)
  deriving DecidableEq

def Demand.directive? : Demand → Option Directive
  | .value d | .members d => some d
  | .fault _ => none

def Piece.demands : List Piece → List Demand
  | [] => []
  | .char _ :: rest => demands rest
  | .variable d :: rest => .value d :: demands rest

mutual

/-- The demands of a value, in the order of the text. -/
def Node.demands : Node → List Demand
  | .scalar _ => []
  | .text pieces | .broken pieces => Piece.demands pieces
  | .directive d => [.value d]
  | .array elements => elements.demands
  | .object members => members.demands

def Elements.demands : Elements → List Demand
  | .none => []
  | .add earlier _ node => earlier.demands ++ node.demands

def Members.demands : Members → List Demand
  | .none => []
  | .add earlier _ key node => earlier.demands ++ (Piece.demands key ++ node.demands)
  | .spread earlier d => earlier.demands ++ [.members d]

end

def Draft.bodyDemands (draft : Draft) : List Demand :=
  match draft.body with
  | none => []
  | some (_, node) => node.demands

theorem Piece.isSome_of_mem_demands {pieces : List Piece} {demand : Demand}
    (h : demand ∈ Piece.demands pieces) : demand.directive?.isSome := by
  induction pieces with
  | nil => cases h
  | cons piece rest ih =>
      match piece with
      | .char _ => exact ih h
      | .variable d =>
          rcases List.mem_cons.mp h with rfl | h
          · rfl
          · exact ih h

mutual

/-- A value demands nothing but directives. -/
theorem Node.isSome_of_mem_demands (node : Node) {demand : Demand} (h : demand ∈ node.demands) :
    demand.directive?.isSome := by
  match node with
  | .scalar _ => cases h
  | .text _ | .broken _ => exact Piece.isSome_of_mem_demands h
  | .directive d =>
      obtain rfl := List.mem_singleton.mp h
      rfl
  | .array elements => exact Elements.isSome_of_mem_demands elements h
  | .object members => exact Members.isSome_of_mem_demands members h

theorem Elements.isSome_of_mem_demands (elements : Elements) {demand : Demand}
    (h : demand ∈ elements.demands) : demand.directive?.isSome := by
  match elements with
  | .none => cases h
  | .add earlier _ node =>
      rcases List.mem_append.mp h with h | h
      · exact Elements.isSome_of_mem_demands earlier h
      · exact Node.isSome_of_mem_demands node h

theorem Members.isSome_of_mem_demands (members : Members) {demand : Demand}
    (h : demand ∈ members.demands) : demand.directive?.isSome := by
  match members with
  | .none => cases h
  | .add earlier _ key node =>
      rcases List.mem_append.mp h with h | h
      · exact Members.isSome_of_mem_demands earlier h
      · rcases List.mem_append.mp h with h | h
        · exact Piece.isSome_of_mem_demands h
        · exact Node.isSome_of_mem_demands node h
  | .spread earlier d =>
      rcases List.mem_append.mp h with h | h
      · exact Members.isSome_of_mem_demands earlier h
      · obtain rfl := List.mem_singleton.mp h
        rfl

end

/-- All demands of a template, the links that nothing else needs at the end. -/
def Draft.demands (links : List Directive) (draft : Draft) : List Demand :=
  draft.leading.map .value ++ (draft.bodyDemands ++ (draft.trailing.map .value ++
    (draft.fault.toList.map .fault ++ links.map .value)))

/-- What the links of a template gave so far, by their numbers. -/
abbrev Table := List (Nat × Assembled)

namespace Table

/-- Whether all of `t` is still in `u`. -/
def Extends (t u : Table) : Prop :=
  ∀ n a, Assoc.find? n t = some a → Assoc.find? n u = some a

theorem Extends.refl (t : Table) : t.Extends t := fun _ _ h => h

theorem Extends.trans {t u v : Table} (h : t.Extends u) (h' : u.Extends v) : t.Extends v :=
  fun n a ha => h' n a (h n a ha)

theorem extends_insert {t : Table} {n : Nat} (h : Assoc.find? n t = none) (a : Assembled) :
    t.Extends (Assoc.insert n a t) := by
  intro m b hb
  rw [Assoc.find?_insert]
  split
  · next e => subst e; rw [h] at hb; cases hb
  · exact hb

end Table

namespace Scope

variable (s : Scope)

/-- The link whose value a directive takes. -/
def linkOf? (d : Directive) : Option (Directive × Link) :=
  match d.meaning with
  | .link link => some (d, link)
  | .variable expression => Assoc.find? (Placeholder.identifier expression) s.names

/-- What a directive that takes no link's value stands for. -/
def placeholder (d : Directive) : Json :=
  match d.meaning with
  | .link _ => .null
  | .variable expression => Placeholder.valueOf expression s.given

/-- What a directive stands for once the table is as it is. -/
def seen (t : Table) (d : Directive) : Json × Option SourceMap :=
  match s.linkOf? d with
  | some (d, _) =>
      let assembled := (Assoc.find? d.number t).getD .nothing
      (assembled.value, some assembled.map)
  | none => (s.placeholder d, none)

/-- Whether the table has what a directive needs. -/
def Knows (t : Table) (d : Directive) : Prop :=
  match s.linkOf? d with
  | some (d, _) => (Assoc.find? d.number t).isSome
  | none => True

/-- Whether something can give its members to an object without a problem. -/
def spreadable : Json × Option SourceMap → Bool
  | (.object _, _) | (.null, some _) => true
  | _ => false

def unspreadable (value : Json) (d : Directive) : Problem :=
  .ofLocation (.notSpreadable value.describe d.raw) s.path d.range.first

def learn (t : Table) (d : Directive) : Run Table :=
  match s.linkOf? d with
  | none => pure t
  | some (d, link) =>
      match Assoc.find? d.number t with
      | some _ => pure t
      | none => do
          let assembled ← s.follow d link
          return Assoc.insert d.number assembled t

/-- The table once a demand has been met. -/
def meet (t : Table) : Demand → Run Table
  | .value d => s.learn t d
  | .members d => do
      let t ← s.learn t d
      if spreadable (s.seen t d) then return t
      else
        Run.report (s.unspreadable (s.seen t d).1 d)
        return t
  | .fault f => do
      Run.report (.ofLocation (.fault f.fault) s.path f.place)
      return t

def meetAll (t : Table) : List Demand → Run Table
  | [] => pure t
  | demand :: rest => do
      let t ← s.meet t demand
      meetAll t rest

variable {s}

/-! ## Meeting one demand -/

theorem learn_none {t : Table} {d : Directive} (h : s.linkOf? d = none) (w : Watch) :
    s.learn t d w = ⟨t, .empty, w⟩ := by
  simp only [learn, h]
  rfl

theorem learn_known {t : Table} {d e : Directive} {link : Link} {a : Assembled}
    (h : s.linkOf? d = some (e, link)) (ha : Assoc.find? e.number t = some a) (w : Watch) :
    s.learn t d w = ⟨t, .empty, w⟩ := by
  simp only [learn, h, ha]
  rfl

theorem learn_new {t : Table} {d e : Directive} {link : Link}
    (h : s.linkOf? d = some (e, link)) (ha : Assoc.find? e.number t = none) (w : Watch) :
    s.learn t d w =
      ⟨Assoc.insert e.number (s.follow e link w).value t, (s.follow e link w).ledger,
        (s.follow e link w).watch⟩ := by
  simp only [learn, h, ha, Run.bind_apply, Run.pure_apply, Ledger.append_empty]

/-- Either nothing happens, because the table has all that a directive needs, or the link of
the directive is followed. -/
theorem learn_cases (t : Table) (d : Directive) (w : Watch) :
    (s.Knows t d ∧ s.learn t d w = ⟨t, .empty, w⟩) ∨
      ∃ e link, s.linkOf? d = some (e, link) ∧ Assoc.find? e.number t = none ∧
        s.learn t d w =
          ⟨Assoc.insert e.number (s.follow e link w).value t, (s.follow e link w).ledger,
            (s.follow e link w).watch⟩ := by
  cases h : s.linkOf? d with
  | none => exact Or.inl ⟨by simp [Knows, h], learn_none h w⟩
  | some found =>
      obtain ⟨e, link⟩ := found
      cases ha : Assoc.find? e.number t with
      | some a => exact Or.inl ⟨by simp [Knows, h, ha], learn_known h ha w⟩
      | none => exact Or.inr ⟨e, link, rfl, ha, learn_new h ha w⟩

theorem extends_learn (t : Table) (d : Directive) (w : Watch) :
    t.Extends (s.learn t d w).value := by
  rcases learn_cases t d w with ⟨-, h⟩ | ⟨e, link, -, ha, h⟩
  · rw [h]; exact .refl t
  · rw [h]; exact Table.extends_insert ha _

theorem Knows.mono {t u : Table} {d : Directive} (h : s.Knows t d) (hu : t.Extends u) :
    s.Knows u d := by
  unfold Knows at h ⊢
  split
  · next e link hlink =>
      rw [hlink] at h
      obtain ⟨a, ha⟩ := Option.isSome_iff_exists.mp h
      rw [hu _ _ ha]
      rfl
  · trivial

theorem Knows.seen_eq {t u : Table} {d : Directive} (h : s.Knows t d) (hu : t.Extends u) :
    s.seen u d = s.seen t d := by
  unfold Knows at h
  unfold seen
  split
  · next e link hlink =>
      rw [hlink] at h
      obtain ⟨a, ha⟩ := Option.isSome_iff_exists.mp h
      rw [ha, hu _ _ ha]
  · rfl

theorem knows_learn (t : Table) (d : Directive) (w : Watch) :
    s.Knows (s.learn t d w).value d := by
  rcases learn_cases t d w with ⟨hk, h⟩ | ⟨e, link, hlink, -, h⟩
  · rw [h]; exact hk
  · rw [h]
    simp [Knows, hlink, Assoc.find?_insert]

/-- The problem that meeting a demand adds to what its link wrote. -/
def ownProblems (s : Scope) (t : Table) : Demand → List Problem
  | .value _ => []
  | .members d =>
      if spreadable (s.seen t d) then [] else [s.unspreadable (s.seen t d).1 d]
  | .fault f => [.ofLocation (.fault f.fault) s.path f.place]

theorem meet_value (t : Table) (d : Directive) (w : Watch) :
    s.meet t (.value d) w = s.learn t d w := rfl

theorem meet_members (t : Table) (d : Directive) (w : Watch) :
    s.meet t (.members d) w =
      ⟨(s.learn t d w).value,
        (s.learn t d w).ledger ++ { problems := s.ownProblems (s.learn t d w).value (.members d) },
        (s.learn t d w).watch⟩ := by
  simp only [meet, Run.bind_apply, ownProblems]
  split <;> rfl

theorem meet_fault (t : Table) (f : FaultAt) (w : Watch) :
    s.meet t (.fault f) w = ⟨t, { problems := s.ownProblems t (.fault f) }, w⟩ := rfl

theorem extends_meet (t : Table) (demand : Demand) (w : Watch) :
    t.Extends (s.meet t demand w).value := by
  cases demand with
  | value d => exact extends_learn t d w
  | members d => rw [meet_members]; exact extends_learn t d w
  | fault f => exact .refl t

theorem knows_meet {demand : Demand} {d : Directive} (h : demand.directive? = some d)
    (t : Table) (w : Watch) : s.Knows (s.meet t demand w).value d := by
  cases demand with
  | value e => cases h; exact knows_learn t d w
  | members e => cases h; rw [meet_members]; exact knows_learn t d w
  | fault f => cases h

/-! ## Meeting a row of demands -/

theorem meetAll_nil (t : Table) (w : Watch) : s.meetAll t [] w = ⟨t, .empty, w⟩ := rfl

theorem meetAll_cons (t : Table) (demand : Demand) (rest : List Demand) (w : Watch) :
    s.meetAll t (demand :: rest) w =
      let first := s.meet t demand w
      let others := s.meetAll first.value rest first.watch
      ⟨others.value, first.ledger ++ others.ledger, others.watch⟩ := rfl

theorem meetAll_append (t : Table) (first second : List Demand) (w : Watch) :
    s.meetAll t (first ++ second) w =
      let a := s.meetAll t first w
      let b := s.meetAll a.value second a.watch
      ⟨b.value, a.ledger ++ b.ledger, b.watch⟩ := by
  induction first generalizing t w with
  | nil => simp [meetAll_nil]
  | cons demand rest ih => simp only [List.cons_append, meetAll_cons, ih, Ledger.append_assoc]

theorem extends_meetAll (t : Table) (demands : List Demand) (w : Watch) :
    t.Extends (s.meetAll t demands w).value := by
  induction demands generalizing t w with
  | nil => exact .refl t
  | cons demand rest ih =>
      rw [meetAll_cons]
      exact (extends_meet t demand w).trans (ih _ _)

theorem knows_meetAll {demands : List Demand} {demand : Demand} {d : Directive}
    (hmem : demand ∈ demands) (h : demand.directive? = some d) (t : Table) (w : Watch) :
    s.Knows (s.meetAll t demands w).value d := by
  induction demands generalizing t w with
  | nil => cases hmem
  | cons first rest ih =>
      rw [meetAll_cons]
      rcases List.mem_cons.mp hmem with rfl | hmem
      · exact (knows_meet h t w).mono (extends_meetAll _ _ _)
      · exact ih hmem _ _

end Scope

end Stencil
