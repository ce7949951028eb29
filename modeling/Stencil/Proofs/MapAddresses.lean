import Stencil.Proofs.Visits

/-!
# Which map entries address nodes

Every entry of a source map was written for a node, but not every node stays: writing
a member again replaces its value, and the entries of what was inside the old value
stay in the map. So an entry addresses a node of the result exactly if the node is
still there, and this file says where nodes get lost.

`inside` lists the pointers that the parts of a draft write, and `Tidy` is the
condition: where a member is written again, whatever was mapped inside the earlier
value is found inside the last one, be it a member of its own or one of those that a
spread puts in; and where a directive stands, the map it brings along addresses nodes
of its value. The induction goes through the draft, and through the members of an
object from the last to the first, with the names that are written later. A member
that is not written later has in the object the value it was written with.

If no object writes a member again, what is left of the condition is that the maps of
the imported files address nodes of their values; so they all do.
-/

namespace Stencil

/-! ## Nodes of a value -/

namespace Json

def itemAt? (token : String) (items : List Json) : Option Json :=
  ((List.range items.length).find? fun n => toString n = token).bind fun n => items[n]?

def child? (token : String) : Json → Option Json
  | .object members => Assoc.find? token members
  | .array items => itemAt? token items
  | _ => none

/-- The node of a value that tokens lead to. -/
def node? : List String → Json → Option Json
  | [], value => some value
  | token :: rest, value => (value.child? token).bind (node? rest)

/-- Whether tokens lead to a node of a value. -/
def Has (value : Json) (tokens : List String) : Prop := (value.node? tokens).isSome

instance (value : Json) (tokens : List String) : Decidable (value.Has tokens) :=
  inferInstanceAs (Decidable (_ = true))

theorem has_nil (value : Json) : value.Has [] := rfl

theorem has_cons_iff {value : Json} {token : String} {rest : List String} :
    value.Has (token :: rest) ↔ ∃ child, value.child? token = some child ∧ child.Has rest := by
  rw [Has, node?]
  cases value.child? token with
  | none => simp
  | some child => simp [Has]

theorem toString_inj {m n : Nat} : toString m = toString n ↔ m = n := by
  refine ⟨fun h => ?_, fun h => h ▸ rfl⟩
  have hdigits : Nat.toDigits 10 m = Nat.toDigits 10 n := by
    rw [← Nat.toList_repr, ← Nat.toList_repr]
    exact congrArg String.toList h
  rw [← Nat.ofDigitChars_toDigits (n := m) (b := 10) (by decide) (by decide), hdigits,
    Nat.ofDigitChars_toDigits (by decide) (by decide)]

theorem itemAt?_toString (n : Nat) (items : List Json) :
    itemAt? (toString n) items = items[n]? := by
  unfold itemAt?
  by_cases hn : n < items.length
  · have hfind : (List.range items.length).find? (fun m => toString m = toString n) = some n := by
      rw [List.find?_range_eq_some]
      refine ⟨by simp, List.mem_range.mpr hn, fun m hm => ?_⟩
      have hne : ¬ toString m = toString n := fun h => absurd (toString_inj.mp h) (by omega)
      rw [decide_eq_false hne]
      rfl
    rw [hfind]
    rfl
  · have hfind : (List.range items.length).find? (fun m => toString m = toString n) = none := by
      rw [List.find?_eq_none]
      intro m hm
      rw [List.mem_range] at hm
      simp only [toString_inj, decide_eq_true_eq]
      omega
    rw [hfind, List.getElem?_eq_none (by omega)]
    rfl

theorem has_array_iff {items : List Json} {n : Nat} {rest : List String} :
    (Json.array items).Has (toString n :: rest) ↔
      ∃ item, items[n]? = some item ∧ item.Has rest := by
  rw [has_cons_iff, child?, itemAt?_toString]

theorem has_object_iff {members : List (String × Json)} {name : String} {rest : List String} :
    (Json.object members).Has (name :: rest) ↔
      ∃ value, Assoc.find? name members = some value ∧ value.Has rest := has_cons_iff

/-- The value itself is there in any case, so only what is inside it counts. -/
theorem forall_has_iff {value : Json} {tokens : List (List String)} :
    (∀ ts ∈ tokens, value.Has ts) ↔
      ∀ token rest, token :: rest ∈ tokens → value.Has (token :: rest) := by
  refine ⟨fun h token rest => h (token :: rest), fun h ts hts => ?_⟩
  cases ts with
  | nil => exact has_nil value
  | cons token rest => exact h token rest hts

end Json

/-! ## Pointers that a draft writes -/

/-- The tokens of the pointers of a map. -/
def SourceMap.tokens (map : SourceMap) : List (List String) :=
  (Assoc.keys map.entries).map Pointer.tokens

/-- The tokens of the pointers that a value brings along where it is put. -/
def SourceMap.tokensOf : Option SourceMap → List (List String)
  | none => []
  | some map => map.tokens

/-- The tokens of the pointers that a value brings along where its members are put. -/
def spreadTokens : Json × Option SourceMap → List (List String)
  | (.object _, some map) => map.tokens
  | (.object members, none) => members.map fun m => [m.1]
  | _ => []

mutual

/-- The pointers that are written for what is inside a node, seen from the node. -/
def Node.inside (look : Look) : Node → List (List String)
  | .directive d => SourceMap.tokensOf (look d).2
  | .array elements => elements.inside look
  | .object members => members.inside look
  | .scalar _ | .text _ | .broken _ => []

def Elements.inside (look : Look) : Elements → List (List String)
  | .none => []
  | .add earlier _ node =>
      if node.isBroken then earlier.inside look
      else
        let token := toString (earlier.read look).length
        earlier.inside look ++ (node.inside look).map (token :: ·) ++ [[token]]

def Members.inside (look : Look) : Members → List (List String)
  | .none => []
  | .add earlier _ key node =>
      if node.isBroken then earlier.inside look
      else
        let name := String.ofList (Piece.read look key)
        earlier.inside look ++ (node.inside look).map (name :: ·) ++ [[name]]
  | .spread earlier d => earlier.inside look ++ spreadTokens (look d)

end

theorem tokens_moved (map : SourceMap) (p : Pointer) :
    (map.moved p).map (fun e => e.1.tokens) = map.tokens.map (p.tokens ++ ·) := by
  simp [SourceMap.moved, SourceMap.tokens, Assoc.keys, Pointer.join]

theorem tokens_movedEntries (p : Pointer) (map : Option SourceMap) :
    (movedEntries p map).map (fun e => e.1.tokens)
      = (SourceMap.tokensOf map).map (p.tokens ++ ·) := by
  cases map with
  | none => rfl
  | some map => exact tokens_moved map p

theorem tokens_child (p : Pointer) (token : String) (inside : List (List String)) :
    (inside.map (token :: ·)).map (p.tokens ++ ·) = inside.map ((p.key token).tokens ++ ·) := by
  simp [Pointer.key]

section Below

variable {path : Path} {look : Look}

theorem tokens_spreadEntries (p : Pointer) (d : Directive) (x : Json × Option SourceMap) :
    (Scope.spreadEntries path p d x).map (fun e => e.1.tokens)
      = (spreadTokens x).map (p.tokens ++ ·) := by
  obtain ⟨value, map⟩ := x
  cases value <;> cases map <;>
    simp [Scope.spreadEntries, spreadTokens, tokens_moved, Pointer.key]

mutual

theorem Node.tokens_entries (p : Pointer) (node : Node) :
    (node.entries path look p).map (fun e => e.1.tokens)
      = (node.inside look).map (p.tokens ++ ·) := by
  match node with
  | .scalar _ | .text _ | .broken _ => rfl
  | .directive d => exact tokens_movedEntries p (look d).2
  | .array elements => exact Elements.tokens_entries p elements
  | .object members => exact Members.tokens_entries p members

theorem Elements.tokens_entries (p : Pointer) (elements : Elements) :
    (elements.entries path look p).map (fun e => e.1.tokens)
      = (elements.inside look).map (p.tokens ++ ·) := by
  match elements with
  | .none => rfl
  | .add earlier place node =>
      simp only [Elements.entries, Elements.inside]
      split
      · exact Elements.tokens_entries p earlier
      · simp only [List.map_append, Elements.tokens_entries p earlier, tokens_child,
          Node.tokens_entries _ node, Pointer.index]
        rfl

theorem Members.tokens_entries (p : Pointer) (members : Members) :
    (members.entries path look p).map (fun e => e.1.tokens)
      = (members.inside look).map (p.tokens ++ ·) := by
  match members with
  | .none => rfl
  | .add earlier place key node =>
      simp only [Members.entries, Members.inside]
      split
      · exact Members.tokens_entries p earlier
      · simp only [List.map_append, Members.tokens_entries p earlier, tokens_child,
          Node.tokens_entries _ node]
        rfl
  | .spread earlier d =>
      simp only [Members.entries, Members.inside, List.map_append, Members.tokens_entries p earlier,
        tokens_spreadEntries]

end

end Below

/-! ## Names of members -/

/-- The names under which the members of an object are written, in order. -/
def Members.names (look : Look) : Members → List String
  | .none => []
  | .add earlier _ key node =>
      if node.isBroken then earlier.names look
      else earlier.names look ++ [String.ofList (Piece.read look key)]
  | .spread earlier d => earlier.names look ++ Assoc.keys (look d).1.membersOf

/-- Induction on a row of members alone, from the earlier ones to the last. -/
@[elab_as_elim]
theorem Members.row_induction {motive : Members → Prop} (members : Members)
    (none : motive .none)
    (add : ∀ earlier place key node, motive earlier → motive (.add earlier place key node))
    (spread : ∀ earlier d, motive earlier → motive (.spread earlier d)) : motive members :=
  @Members.rec (fun _ => True) (fun _ => True) motive (fun _ => trivial) (fun _ => trivial)
    (fun _ => trivial) (fun _ _ => trivial) (fun _ _ => trivial) (fun _ => trivial) trivial
    (fun _ _ _ _ _ => trivial) none
    (fun earlier place key node ih _ => add earlier place key node ih)
    (fun earlier d ih => spread earlier d ih) members

theorem mem_keys_foldl_insert {other : String} (members list : List (String × Json)) :
    other ∈ Assoc.keys (members.foldl (fun list m => Assoc.insert m.1 m.2 list) list) ↔
      other ∈ Assoc.keys members ∨ other ∈ Assoc.keys list := by
  induction members generalizing list with
  | nil => simp
  | cons m rest ih =>
      rw [List.foldl_cons, ih, Assoc.mem_keys_insert, Assoc.keys_cons, List.mem_cons, or_assoc,
        or_left_comm]

theorem find?_foldl_insert {name : String} (members list : List (String × Json))
    (h : name ∉ Assoc.keys members) :
    Assoc.find? name (members.foldl (fun list m => Assoc.insert m.1 m.2 list) list)
      = Assoc.find? name list := by
  induction members generalizing list with
  | nil => rfl
  | cons m rest ih =>
      rw [Assoc.keys_cons, List.mem_cons, not_or] at h
      rw [List.foldl_cons, ih _ h.2, Assoc.find?_insert, if_neg (fun e => h.1 e.symm)]

theorem isSome_find?_foldl_insert {name : String} (members list : List (String × Json))
    (h : name ∈ Assoc.keys members) :
    (Assoc.find? name (members.foldl (fun list m => Assoc.insert m.1 m.2 list) list)).isSome := by
  rw [Option.isSome_iff_ne_none, Ne, Assoc.find?_eq_none_iff, not_not, mem_keys_foldl_insert]
  exact Or.inl h

/-- What is found under a name that is put in does not depend on what was there before. -/
theorem find?_foldl_insert_of_mem {name : String} (members list : List (String × Json))
    (h : name ∈ Assoc.keys members) :
    Assoc.find? name (members.foldl (fun list m => Assoc.insert m.1 m.2 list) list)
      = Assoc.find? name (Assoc.ofList members) := by
  suffices hsame : ∀ list list' : List (String × Json),
      Assoc.find? name (members.foldl (fun list m => Assoc.insert m.1 m.2 list) list)
        = Assoc.find? name (members.foldl (fun list m => Assoc.insert m.1 m.2 list) list') from
    hsame list []
  induction members with
  | nil => cases h
  | cons m rest ih =>
      intro list list'
      rw [List.foldl_cons, List.foldl_cons]
      by_cases hrest : name ∈ Assoc.keys rest
      · exact ih hrest _ _
      · rw [Assoc.keys_cons, List.mem_cons] at h
        have hname : m.1 = name := (h.resolve_right hrest).symm
        rw [find?_foldl_insert rest _ hrest, find?_foldl_insert rest _ hrest, Assoc.find?_insert,
          Assoc.find?_insert, if_pos hname, if_pos hname]

section Names

variable {look : Look}

theorem Members.mem_names_iff (members : Members) {name : String} :
    name ∈ members.names look ↔ name ∈ Assoc.keys (members.read look) := by
  induction members using Members.row_induction with
  | none => exact Iff.rfl
  | add earlier place key node ih =>
      rw [names, Members.read]
      split
      · exact ih
      · rw [Assoc.mem_keys_insert, List.mem_append, List.mem_singleton, ih, or_comm]
  | spread earlier d ih =>
      rw [names, Members.read, mem_keys_foldl_insert, List.mem_append, ih, or_comm]

/-- Whether all that a value brings along where its members are put is inside these members. -/
def Headed (x : Json × Option SourceMap) : Prop :=
  ∀ name rest, name :: rest ∈ spreadTokens x → name ∈ Assoc.keys x.1.membersOf

theorem headed_of_no_map (value : Json) : Headed (value, none) := by
  intro name rest h
  cases value with
  | object members =>
      obtain ⟨m, hm, htokens⟩ := List.mem_map.mp h
      cases htokens
      exact List.mem_map_of_mem hm
  | null | bool | number | string | array => cases h

/-- What is written inside an object is inside its members. -/
theorem Members.mem_names_of_mem_inside (hlook : ∀ d, Headed (look d)) (members : Members)
    {name : String} {rest : List String} (h : name :: rest ∈ members.inside look) :
    name ∈ members.names look := by
  induction members using Members.row_induction with
  | none => cases h
  | add earlier place key node ih =>
      rw [Members.inside] at h
      rw [Members.names]
      split at h
      · next hbroken =>
          rw [if_pos hbroken]
          exact ih h
      · next hbroken =>
          rw [if_neg hbroken]
          rcases List.mem_append.mp h with h | h
          · rcases List.mem_append.mp h with h | h
            · exact List.mem_append_left _ (ih h)
            · obtain ⟨ts, -, hts⟩ := List.mem_map.mp h
              cases hts
              exact List.mem_append_right _ (List.mem_singleton_self _)
          · cases List.mem_singleton.mp h
            exact List.mem_append_right _ (List.mem_singleton_self _)
  | spread earlier d ih =>
      rw [Members.inside] at h
      rw [Members.names]
      rcases List.mem_append.mp h with h | h
      · exact List.mem_append_left _ (ih h)
      · exact List.mem_append_right _ (hlook d name rest h)

/-- What is written inside a node that is an object is inside its members. -/
theorem Node.mem_keys_of_mem_inside (hlook : ∀ d, Headed (look d)) {node : Node} {name : String}
    {rest : List String} {list : List (String × Json)} (hobject : node.read look = .object list)
    (h : name :: rest ∈ node.inside look) : name ∈ Assoc.keys list := by
  cases node with
  | directive d =>
      have hheads := hlook d name rest
      rw [Node.read] at hobject
      rw [Node.inside] at h
      generalize look d = x at hobject hheads h
      obtain ⟨value, map⟩ := x
      cases hobject
      cases map with
      | none => cases h
      | some map => exact hheads h
  | object members =>
      cases hobject
      exact members.mem_names_iff.mp (Members.mem_names_of_mem_inside hlook members h)
  | array elements => cases hobject
  | scalar | text | broken => cases h

end Names

/-! ## Where nodes get lost -/

mutual

/-- Whether what is written stays: everything mapped inside a member that is written again later is
in the object in the end, and everything that a spread brings along for a member that is not is a
node of the spread's own members. For a directive there is a condition of its own. An object is
gone through from the last member to the first, with the names that are written `later`; `final`
are its members in the end. -/
def Node.Tidy (look : Look) (imported : Directive → Prop) : Node → Prop
  | .directive d => imported d
  | .array elements => elements.Tidy look imported
  | .object members => members.Tidy look imported (members.read look) []
  | .scalar _ | .text _ | .broken _ => True

def Elements.Tidy (look : Look) (imported : Directive → Prop) : Elements → Prop
  | .none => True
  | .add earlier _ node => earlier.Tidy look imported ∧ node.Tidy look imported

def Members.Tidy (look : Look) (imported : Directive → Prop) (final : List (String × Json))
    (later : List String) : Members → Prop
  | .none => True
  | .add earlier _ key node =>
      if node.isBroken then earlier.Tidy look imported final later
      else
        let name := String.ofList (Piece.read look key)
        earlier.Tidy look imported final (name :: later) ∧
          if name ∈ later then ∀ ts ∈ node.inside look, (Json.object final).Has (name :: ts)
          else node.Tidy look imported
  | .spread earlier d =>
      let members := (look d).1.membersOf
      earlier.Tidy look imported final (Assoc.keys members ++ later) ∧
        ∀ name rest, name :: rest ∈ spreadTokens (look d) →
          if name ∈ later then (Json.object final).Has (name :: rest)
          else (Json.object (Assoc.ofList members)).Has (name :: rest)

end

def Draft.Tidy (look : Look) (imported : Directive → Prop) (draft : Draft) : Prop :=
  match draft.body with
  | none => True
  | some (_, node) => node.Tidy look imported

/-- Whether the map of a value, if it comes with one, addresses nodes of the value. -/
def Addresses (x : Json × Option SourceMap) : Prop := ∀ ts ∈ SourceMap.tokensOf x.2, x.1.Has ts

theorem Node.tidy_of_isBroken {look : Look} {imported : Directive → Prop} {node : Node}
    (h : node.isBroken = true) : node.Tidy look imported := by
  match node with
  | .broken _ => trivial
  | .scalar _ | .text _ | .directive _ | .array _ | .object _ => cases h

theorem Elements.lt_of_mem_inside {look : Look} (elements : Elements) {ts : List String}
    (h : ts ∈ elements.inside look) :
    ∃ n rest, ts = toString n :: rest ∧ n < (elements.read look).length := by
  match elements with
  | .none => cases h
  | .add earlier place node =>
      simp only [Elements.inside, Elements.read] at h ⊢
      split at h
      · next hbroken => rw [if_pos hbroken]; exact earlier.lt_of_mem_inside h
      · next hbroken =>
          rw [if_neg hbroken, List.length_append, List.length_singleton]
          rcases List.mem_append.mp h with h | h
          · rcases List.mem_append.mp h with h | h
            · obtain ⟨n, rest, hts, hn⟩ := earlier.lt_of_mem_inside h
              exact ⟨n, rest, hts, by omega⟩
            · obtain ⟨rest, -, rfl⟩ := List.mem_map.mp h
              exact ⟨_, rest, rfl, by omega⟩
          · exact ⟨_, [], List.mem_singleton.mp h, by omega⟩

theorem Elements.has_append_iff {look : Look} (elements : Elements) {ts : List String}
    (h : ts ∈ elements.inside look) (value : Json) :
    (Json.array (elements.read look ++ [value])).Has ts
      ↔ (Json.array (elements.read look)).Has ts := by
  obtain ⟨n, rest, rfl, hn⟩ := elements.lt_of_mem_inside h
  rw [Json.has_array_iff, Json.has_array_iff, List.getElem?_append_left hn]

section Tidy

variable {look : Look}

mutual

/-- A node's pointers all address nodes of its value exactly if what is written stays. -/
theorem Node.has_inside_iff (hlook : ∀ d, Headed (look d)) (node : Node) :
    (∀ ts ∈ node.inside look, (node.read look).Has ts)
      ↔ node.Tidy look fun d => Addresses (look d) := by
  match node with
  | .scalar _ | .text _ | .broken _ => simp [Node.inside, Node.Tidy]
  | .directive d => exact Iff.rfl
  | .array elements => exact Elements.has_inside_iff hlook elements
  | .object members =>
      exact Members.has_inside_iff hlook members (members.read look) [] (fun _ _ => rfl)
        fun _ h => absurd h List.not_mem_nil

theorem Elements.has_inside_iff (hlook : ∀ d, Headed (look d)) (elements : Elements) :
    (∀ ts ∈ elements.inside look, (Json.array (elements.read look)).Has ts)
      ↔ elements.Tidy look fun d => Addresses (look d) := by
  match elements with
  | .none => simp [Elements.inside, Elements.Tidy]
  | .add earlier place node =>
      simp only [Elements.inside, Elements.read, Elements.Tidy]
      split
      · next hbroken =>
          rw [and_iff_left (Node.tidy_of_isBroken hbroken)]
          exact Elements.has_inside_iff hlook earlier
      · rw [← Elements.has_inside_iff hlook earlier, ← Node.has_inside_iff hlook node,
          List.forall_mem_append, List.forall_mem_append, List.forall_mem_map]
        have hlast : ∀ ts, (Json.array (earlier.read look ++ [node.read look])).Has
            (toString (earlier.read look).length :: ts) ↔ (node.read look).Has ts := by
          intro ts
          rw [Json.has_array_iff, List.getElem?_append_right (Nat.le_refl _)]
          simp
        constructor
        · rintro ⟨⟨hearlier, hnode⟩, -⟩
          exact ⟨fun ts hts => (earlier.has_append_iff hts _).mp (hearlier ts hts),
            fun ts hts => (hlast ts).mp (hnode ts hts)⟩
        · rintro ⟨hearlier, hnode⟩
          refine ⟨⟨fun ts hts => (earlier.has_append_iff hts _).mpr (hearlier ts hts),
            fun ts hts => (hlast ts).mpr (hnode ts hts)⟩, fun ts hts => ?_⟩
          rw [List.mem_singleton.mp hts]
          exact (hlast []).mpr (Json.has_nil _)

theorem Members.has_inside_iff (hlook : ∀ d, Headed (look d)) (members : Members)
    (final : List (String × Json)) (later : List String)
    (hfinal : ∀ name, name ∉ later → Assoc.find? name final = Assoc.find? name (members.read look))
    (hlater : ∀ name ∈ later, (Assoc.find? name final).isSome) :
    (∀ ts ∈ members.inside look, (Json.object final).Has ts)
      ↔ members.Tidy look (fun d => Addresses (look d)) final later := by
  match members with
  | .none => simp [Members.inside, Members.Tidy]
  | .add earlier place key node =>
      simp only [Members.inside, Members.Tidy]
      split
      · next hbroken =>
          simp only [Members.read, if_pos hbroken] at hfinal
          exact Members.has_inside_iff hlook earlier final later hfinal hlater
      · next hbroken =>
          simp only [Members.read, if_neg hbroken, Assoc.find?_insert] at hfinal
          generalize String.ofList (Piece.read look key) = name at hfinal ⊢
          have hname : (Assoc.find? name final).isSome := by
            by_cases h : name ∈ later
            · exact hlater name h
            · rw [hfinal name h, if_pos rfl]
              rfl
          have hearlier := Members.has_inside_iff hlook earlier final (name :: later)
            (fun other hother => by
              rw [List.mem_cons, not_or] at hother
              rw [hfinal other hother.2, if_neg (fun e => hother.1 e.symm)])
            (fun other hother => by
              rcases List.mem_cons.mp hother with rfl | hother
              · exact hname
              · exact hlater other hother)
          rw [← hearlier, List.forall_mem_append, List.forall_mem_append, List.forall_mem_map,
            and_assoc]
          refine and_congr Iff.rfl ?_
          -- The member itself is there in any case; what is inside it stays if it stays.
          have hself : ∀ ts ∈ [[name]], (Json.object final).Has ts := by
            intro ts hts
            obtain ⟨value, hvalue⟩ := Option.isSome_iff_exists.mp hname
            rw [List.mem_singleton.mp hts]
            exact Json.has_object_iff.mpr ⟨value, hvalue, Json.has_nil value⟩
          rw [and_iff_left hself]
          split
          · exact Iff.rfl
          · next hlast =>
              rw [← Node.has_inside_iff hlook node]
              have hvalue : Assoc.find? name final = some (node.read look) := by
                rw [hfinal name hlast, if_pos rfl]
              simp only [Json.has_object_iff, hvalue, Option.some.injEq, exists_eq_left']
  | .spread earlier d =>
      simp only [Members.inside, Members.Tidy, List.forall_mem_append]
      simp only [Members.read] at hfinal
      refine and_congr ?_ ?_
      · refine Members.has_inside_iff hlook earlier final _ (fun name hname => ?_)
          fun name hname => ?_
        · rw [List.mem_append, not_or] at hname
          rw [hfinal name hname.2, find?_foldl_insert _ _ hname.1]
        · by_cases h : name ∈ later
          · exact hlater name h
          · rw [hfinal name h]
            exact isSome_find?_foldl_insert _ _ ((List.mem_append.mp hname).resolve_right h)
      · rw [Json.forall_has_iff]
        refine forall_congr' fun name => forall_congr' fun rest => imp_congr_right fun hmem => ?_
        split
        · exact Iff.rfl
        · next hlast =>
            rw [Json.has_object_iff, Json.has_object_iff, hfinal name hlast,
              find?_foldl_insert_of_mem _ _ (hlook d name rest hmem)]

end

end Tidy

/-! ## Where no member is written again -/

mutual

/-- Whether no object inside a node writes a member again. -/
def Node.Distinct (look : Look) : Node → Prop
  | .array elements => elements.Distinct look
  | .object members => (members.names look).Nodup ∧ members.Distinct look
  | .scalar _ | .text _ | .broken _ | .directive _ => True

def Elements.Distinct (look : Look) : Elements → Prop
  | .none => True
  | .add earlier _ node => earlier.Distinct look ∧ node.Distinct look

def Members.Distinct (look : Look) : Members → Prop
  | .none => True
  | .add earlier _ _ node => earlier.Distinct look ∧ node.Distinct look
  | .spread earlier _ => earlier.Distinct look

end

mutual

def Node.decidableDistinct (look : Look) : (node : Node) → Decidable (node.Distinct look)
  | .array elements => elements.decidableDistinct look
  | .object members => @instDecidableAnd _ _ inferInstance (members.decidableDistinct look)
  | .scalar _ | .text _ | .broken _ | .directive _ => isTrue trivial

def Elements.decidableDistinct (look : Look) :
    (elements : Elements) → Decidable (elements.Distinct look)
  | .none => isTrue trivial
  | .add earlier _ node =>
      @instDecidableAnd _ _ (earlier.decidableDistinct look) (node.decidableDistinct look)

def Members.decidableDistinct (look : Look) :
    (members : Members) → Decidable (members.Distinct look)
  | .none => isTrue trivial
  | .add earlier _ _ node =>
      @instDecidableAnd _ _ (earlier.decidableDistinct look) (node.decidableDistinct look)
  | .spread earlier _ => earlier.decidableDistinct look

end

theorem Addresses.headed {x : Json × Option SourceMap} (hx : Addresses x) : Headed x := by
  obtain ⟨value, map⟩ := x
  cases map with
  | none => exact headed_of_no_map value
  | some map =>
      intro name rest h
      cases value with
      | object members =>
          obtain ⟨child, hchild, -⟩ := Json.has_object_iff.mp (hx _ h)
          by_contra hname
          rw [(Assoc.find?_eq_none_iff name members).mpr hname] at hchild
          cases hchild
      | null | bool | number | string | array => cases h

/-- What a spread brings along is found in its members, if these are different. -/
theorem Addresses.has_spread {x : Json × Option SourceMap} (hx : Addresses x)
    (hnodup : (Assoc.keys x.1.membersOf).Nodup) {ts : List String} (h : ts ∈ spreadTokens x) :
    (Json.object (Assoc.ofList x.1.membersOf)).Has ts := by
  rw [Assoc.ofList_of_nodup hnodup]
  obtain ⟨value, map⟩ := x
  cases value with
  | object members =>
      cases map with
      | some map => exact hx ts h
      | none =>
          obtain ⟨m, hm, rfl⟩ := List.mem_map.mp h
          exact Json.has_object_iff.mpr
            ⟨m.2, (Assoc.find?_eq_some_iff hnodup).mpr hm, Json.has_nil _⟩
  | null | bool | number | string | array => cases h

section Distinct

variable {look : Look}

mutual

theorem Node.tidy_of_distinct (hlook : ∀ d, Addresses (look d)) (node : Node)
    (h : node.Distinct look) : node.Tidy look fun d => Addresses (look d) := by
  match node with
  | .scalar _ | .text _ | .broken _ => trivial
  | .directive d => exact hlook d
  | .array elements => exact Elements.tidy_of_distinct hlook elements h
  | .object members =>
      exact Members.tidy_of_distinct hlook members (members.read look) [] h.2 h.1
        (fun _ _ h => absurd h List.not_mem_nil) fun _ _ => rfl

theorem Elements.tidy_of_distinct (hlook : ∀ d, Addresses (look d)) (elements : Elements)
    (h : elements.Distinct look) :
    elements.Tidy look fun d => Addresses (look d) := by
  match elements with
  | .none => trivial
  | .add earlier _ node =>
      exact ⟨Elements.tidy_of_distinct hlook earlier h.1, Node.tidy_of_distinct hlook node h.2⟩

theorem Members.tidy_of_distinct (hlook : ∀ d, Addresses (look d)) (members : Members)
    (final : List (String × Json)) (later : List String) (h : members.Distinct look)
    (hnodup : (members.names look).Nodup)
    (hdisjoint : ∀ name ∈ members.names look, name ∉ later)
    (hfinal : ∀ name, name ∉ later →
      Assoc.find? name final = Assoc.find? name (members.read look)) :
    members.Tidy look (fun d => Addresses (look d)) final later := by
  match members with
  | .none => trivial
  | .add earlier place key node =>
      simp only [Members.Tidy]
      split
      · next hbroken =>
          simp only [Members.names, if_pos hbroken] at hnodup hdisjoint
          simp only [Members.read, if_pos hbroken] at hfinal
          exact Members.tidy_of_distinct hlook earlier final later h.1 hnodup hdisjoint hfinal
      · next hbroken =>
          simp only [Members.names, if_neg hbroken] at hnodup hdisjoint
          simp only [Members.read, if_neg hbroken, Assoc.find?_insert] at hfinal
          generalize String.ofList (Piece.read look key) = name at *
          obtain ⟨hearlier, -, hdiffer⟩ := List.nodup_append.mp hnodup
          have hname : name ∉ later := hdisjoint name (by simp)
          rw [if_neg hname]
          refine ⟨Members.tidy_of_distinct hlook earlier final _ h.1 hearlier
            (fun other hother => ?_) fun other hother => ?_,
            Node.tidy_of_distinct hlook node h.2⟩
          · rw [List.mem_cons, not_or]
            exact ⟨hdiffer other hother name (by simp), hdisjoint other (by simp [hother])⟩
          · rw [List.mem_cons, not_or] at hother
            rw [hfinal other hother.2, if_neg (fun e => hother.1 e.symm)]
  | .spread earlier d =>
      simp only [Members.names] at hnodup hdisjoint
      simp only [Members.read] at hfinal
      obtain ⟨hearlier, hspread, hdiffer⟩ := List.nodup_append.mp hnodup
      refine ⟨Members.tidy_of_distinct hlook earlier final _ h hearlier
        (fun other hother hmem => ?_) fun other hother => ?_, fun name rest h => ?_⟩
      · rcases List.mem_append.mp hmem with hmem | hmem
        · exact hdiffer other hother other hmem rfl
        · exact hdisjoint other (List.mem_append_left _ hother) hmem
      · rw [List.mem_append, not_or] at hother
        rw [hfinal other hother.2, find?_foldl_insert _ _ hother.1]
      · have hname := (hlook d).headed name rest h
        rw [if_neg (hdisjoint name (List.mem_append_right _ hname))]
        exact (hlook d).has_spread hspread h

end

end Distinct

/-- Whether no object of a template writes a member again. -/
def Draft.Distinct (look : Look) (draft : Draft) : Prop :=
  match draft.body with
  | none => True
  | some (_, node) => node.Distinct look

instance (look : Look) (draft : Draft) : Decidable (draft.Distinct look) :=
  match h : draft.body with
  | none => isTrue (by rw [Draft.Distinct, h]; trivial)
  | some (_, node) =>
      @decidable_of_iff _ (node.Distinct look) (by rw [Draft.Distinct, h])
        (node.decidableDistinct look)

theorem Draft.tidy_of_distinct {look : Look} (hlook : ∀ d, Addresses (look d)) {draft : Draft}
    (h : draft.Distinct look) : draft.Tidy look fun d => Addresses (look d) := by
  unfold Draft.Distinct at h
  unfold Draft.Tidy
  match hbody : draft.body with
  | none => trivial
  | some (place, node) =>
      rw [hbody] at h
      exact Node.tidy_of_distinct hlook node h

/-! ## Templates and extractions -/

def Assembled.Located (a : Assembled) : Prop := ∀ p ∈ Assoc.keys a.map.entries, a.value.Has p.tokens

theorem Assembled.located_iff_addresses {a : Assembled} :
    a.Located ↔ ∀ ts ∈ a.map.tokens, a.value.Has ts := by
  rw [SourceMap.tokens, List.forall_mem_map]
  exact Iff.rfl

theorem Assembled.located_nothing : Assembled.nothing.Located :=
  fun _ h => absurd h List.not_mem_nil

theorem SourceMap.mem_keys_insertAll {map : SourceMap} {entries : List Entry} {p : Pointer} :
    p ∈ Assoc.keys (map.insertAll entries).entries ↔
      p ∈ Assoc.keys map.entries ∨ p ∈ entries.map Prod.fst := by
  induction entries generalizing map with
  | nil => simp [insertAll]
  | cons entry rest ih =>
      have hcons : map.insertAll (entry :: rest) =
          (map.insert entry.1 entry.2).insertAll rest := rfl
      rw [hcons, ih, insert, Assoc.mem_keys_insert, List.map_cons, List.mem_cons, or_assoc,
        or_left_comm]

theorem SourceMap.mem_tokens_ofList {entries : List Entry} {ts : List String} :
    ts ∈ (SourceMap.ofList entries).tokens ↔ ts ∈ entries.map fun e => e.1.tokens := by
  rw [tokens, List.mem_map, ofList]
  constructor
  · rintro ⟨p, hp, rfl⟩
    rcases mem_keys_insertAll.mp hp with hp | hp
    · cases hp
    · obtain ⟨entry, hentry, rfl⟩ := List.mem_map.mp hp
      exact List.mem_map.mpr ⟨entry, hentry, rfl⟩
  · intro hts
    obtain ⟨entry, hentry, rfl⟩ := List.mem_map.mp hts
    exact ⟨entry.1, mem_keys_insertAll.mpr (Or.inr (List.mem_map_of_mem hentry)), rfl⟩

theorem Draft.tokens_entries (path : Path) (look : Look) {draft : Draft} {place : Location}
    {node : Node} (hbody : draft.body = some (place, node)) :
    (draft.entries path look).map (fun e => e.1.tokens) = node.inside look ++ [[]] := by
  simp only [Draft.entries, hbody, List.map_append, Node.tokens_entries, Pointer.root,
    List.nil_append, List.map_id', List.map_cons, List.map_nil]

theorem Draft.headed (path : Path) {look : Look} (hlook : ∀ d, Headed (look d)) (draft : Draft) :
    Headed (draft.read look, some (.ofList (draft.entries path look))) := by
  intro name rest h
  cases hbody : draft.body with
  | none => simp [Draft.read, hbody, spreadTokens] at h
  | some body =>
      obtain ⟨place, node⟩ := body
      have hread : draft.read look = node.read look := by simp only [Draft.read, hbody]
      rw [hread] at h ⊢
      cases hvalue : node.read look with
      | object members =>
          rw [hvalue] at h
          have hmem : name :: rest ∈ (SourceMap.ofList (draft.entries path look)).tokens := h
          rw [SourceMap.mem_tokens_ofList, draft.tokens_entries path look hbody] at hmem
          rcases List.mem_append.mp hmem with hmem | hmem
          · exact Node.mem_keys_of_mem_inside hlook hvalue hmem
          · cases List.mem_singleton.mp hmem
      | null | bool | number | string | array =>
          rw [hvalue] at h
          cases h

theorem Draft.has_entries_iff (path : Path) {look : Look} (hlook : ∀ d, Headed (look d))
    (draft : Draft) :
    (∀ ts ∈ (draft.entries path look).map fun e => e.1.tokens, (draft.read look).Has ts)
      ↔ draft.Tidy look fun d => Addresses (look d) := by
  cases hbody : draft.body with
  | none => simp [Draft.entries, Draft.Tidy, hbody]
  | some body =>
      obtain ⟨place, node⟩ := body
      rw [draft.tokens_entries path look hbody, List.forall_mem_append]
      simp only [Draft.read, Draft.Tidy, hbody]
      rw [Node.has_inside_iff hlook node]
      exact and_iff_left (by simp [Json.has_nil])

namespace Setting

variable {s : Setting} {root path : Path} {text? : Option String} {depth : Nat} {trail : List Path}
  {text : String} {w : Watch}

/-- What a spread brings along in an extraction is inside its own members. -/
theorem Assembles.headed (h : s.Assembles root text? depth trail path text w)
    (hscan : (Scan.ofText text).error = none) (d : Directive) :
    Headed (s.lookAt depth trail path text w d) := by
  have hlook {look : Look} (hgrounded : look.Grounded s.options.defaultValues fun a : Assembled =>
      Headed (a.value, some a.map)) (d : Directive) : Headed (look d) := by
    rcases hgrounded d with ⟨a, ha, hd⟩ | hd | ⟨expression, hd⟩
    · exact hd ▸ ha
    all_goals exact hd ▸ headed_of_no_map _
  have hnothing : Headed (Assembled.nothing.value, some Assembled.nothing.map) :=
    fun _ _ h => absurd h List.not_mem_nil
  refine hlook (h.grounded hnothing hscan fun n _ trail path text w h' => ?_) d
  refine h'.holds (V := fun a => Headed (a.value, some a.map)) hnothing
    fun depth trail path text w _ _ hgrounded => ?_
  rw [readWith]
  split
  · exact Draft.headed path (hlook hgrounded) _
  · intro name rest h
    generalize Draft.read _ _ = value at h
    cases value <;> cases h

theorem located_readWith_iff (hmap : s.options.buildSourceMap = true) (path : Path) (text : String)
    {look : Look} (hlook : ∀ d, Headed (look d)) :
    (s.readWith path text look).Located ↔
      (Draft.ofTokens (Scan.ofText text).tokens).Tidy look fun d => Addresses (look d) := by
  rw [← Draft.has_entries_iff path hlook, Assembled.located_iff_addresses]
  simp only [readWith, hmap, if_true, SourceMap.mem_tokens_ofList]

/-- Whether what a text writes stays, when it is assembled at the end of a trail. -/
def TidyAt (s : Setting) (depth : Nat) (trail : List Path) (path : Path) (text : String)
    (w : Watch) : Prop :=
  (Scan.ofText text).error = none →
    (Draft.ofTokens (Scan.ofText text).tokens).Tidy (s.lookAt depth trail path text w) fun d =>
      Addresses (s.lookAt depth trail path text w d)

theorem located_assembleText_iff (hmap : s.options.buildSourceMap = true)
    (h : s.Assembles root text? depth trail path text w) :
    (s.assembleText path text (s.follow depth trail path) w).value.Located ↔
      s.TidyAt depth trail path text w := by
  cases herror : (Scan.ofText text).error with
  | some error =>
      rw [assembleText_error s herror]
      refine iff_of_true Assembled.located_nothing fun h => ?_
      rw [herror] at h
      cases h
  | none =>
      rw [value_assembleText herror]
      simp only [located_readWith_iff hmap path text (h.headed herror), TidyAt, herror,
        forall_const]

/-- If no text that is assembled writes a member again, all maps address nodes of their values. -/
theorem located_of_distinct (hmap : s.options.buildSourceMap = true)
    (hdistinct : ∀ depth trail path text w, s.Assembles root text? depth trail path text w →
      (Draft.ofTokens (Scan.ofText text).tokens).Distinct (s.lookAt depth trail path text w))
    (h : s.Assembles root text? depth trail path text w) :
    (s.assembleText path text (s.follow depth trail path) w).value.Located := by
  refine h.holds Assembled.located_nothing fun depth trail path text w h _ hlook => ?_
  have haddresses (d : Directive) : Addresses (s.lookAt depth trail path text w d) := by
    rcases hlook d with ⟨a, ha, hd⟩ | hd | ⟨expression, hd⟩
    · rw [hd]
      exact Assembled.located_iff_addresses.mp ha
    all_goals
      rw [hd]
      exact fun ts hts => absurd hts List.not_mem_nil
  exact (located_readWith_iff hmap path text fun d => (haddresses d).headed).mpr
    (Draft.tidy_of_distinct haddresses (hdistinct depth trail path text w h))

end Setting

/-- Whether every pointer of an extraction's map addresses a node of its value. -/
def Extraction.Located (e : Extraction) : Prop :=
  ∀ p ∈ Assoc.keys e.map.entries, e.value.Has p.tokens

theorem Setting.located_run_iff_of_opens {s : Setting} {root path : Path} {text? : Option String}
    {text : String} {w : Watch} (hmap : s.options.buildSourceMap = true)
    (hopens : s.Opens root text? path text w) :
    (Extraction.run s root text?).Located ↔
      s.TidyAt s.options.maxImportDepth [path] path text w := by
  rw [hopens.run_eq]
  exact located_assembleText_iff hmap (.root hopens)

theorem Setting.located_run_of_nothing {s : Setting} {root : Path} {text? : Option String}
    (h : (s.extractRoot root text? (Run.initialWatch s.signal)).value = .nothing) :
    (Extraction.run s root text?).Located := by
  have hempty : (Extraction.run s root text?).map = .empty := by
    simp only [Extraction.run, h]
    rfl
  intro p hp
  rw [hempty] at hp
  cases hp

/-- The map of an extraction addresses nodes of its value only, exactly if what the root's text
writes stays; and so for every text that is assembled on the way. -/
theorem Extraction.located_iff (s : Setting) (root : Path) (text? : Option String)
    (hmap : s.options.buildSourceMap = true) :
    ((Extraction.run s root text?).Located ↔
      ∀ path text w, s.Opens root text? path text w →
        s.TidyAt s.options.maxImportDepth [path] path text w) ∧
    ∀ depth trail path text w, s.Assembles root text? depth trail path text w →
      ((s.assembleText path text (s.follow depth trail path) w).value.Located ↔
        s.TidyAt depth trail path text w) := by
  refine ⟨⟨fun h path text w hopens => (Setting.located_run_iff_of_opens hmap hopens).mp h,
    fun h => ?_⟩, fun depth trail path text w h => Setting.located_assembleText_iff hmap h⟩
  rcases s.opens_or_nothing root text? with ⟨path, text, w, hopens⟩ | hnothing
  · exact (Setting.located_run_iff_of_opens hmap hopens).mpr (h path text w hopens)
  · exact Setting.located_run_of_nothing hnothing

/-- A root that writes a member again. -/
def Shelf.overwritten : Shelf := ⟨[(⟨"/p/root.tmpl"⟩, "\x7b\"a\": [1], \"a\": 2\x7d")]⟩

/-- The entry of the first value's item stays, the item does not. -/
theorem Extraction.not_located_overwritten :
    ¬ (Extraction.run (Shelf.overwritten.setting (.standard ⟨"/p"⟩)) ⟨"root.tmpl"⟩
      none).Located := by
  intro h
  exact absurd (h ⟨["a", "0"]⟩ (by decide +kernel)) (by decide +kernel)

/-- A root whose members are all different. -/
def Shelf.written : Shelf := ⟨[(⟨"/p/root.tmpl"⟩, "\x7b\"a\": [1], \"b\": 2\x7d")]⟩

theorem Extraction.located_iff_written :
    let s := Shelf.written.setting (.standard ⟨"/p"⟩)
    s.options.buildSourceMap = true ∧ ∀ path text w, s.Opens ⟨"root.tmpl"⟩ none path text w →
      s.TidyAt s.options.maxImportDepth [path] path text w := by
  intro s
  have hlocated : (Extraction.run s ⟨"root.tmpl"⟩ none).Located := by
    unfold Located
    decide +kernel
  exact ⟨rfl, (located_iff s ⟨"root.tmpl"⟩ none rfl).1.mp hlocated⟩

/-- The positive case: an extraction in which no text writes a member again has a map that addresses
nodes of its value only. -/
theorem Setting.located_run_of_distinct {s : Setting} {root : Path} {text? : Option String}
    (hmap : s.options.buildSourceMap = true)
    (hdistinct : ∀ depth trail path text w, s.Assembles root text? depth trail path text w →
      (Draft.ofTokens (Scan.ofText text).tokens).Distinct (s.lookAt depth trail path text w)) :
    (Extraction.run s root text?).Located :=
  holds_run (V := Assembled.Located) Assembled.located_nothing
    fun _ _ _ _ _ h => located_of_distinct hmap hdistinct h

end Stencil
