import Stencil.Proofs.MapAddresses
import Stencil.Proofs.MapHistories

/-!
# Every node has a map entry

The other direction of a source map: no node of a value goes without an entry. Whatever
becomes a node was written by a part of the draft, and the part wrote an entry for it; or
it is inside what a directive stands for, and came along with that value's own map. An
entry may be written over by another one for the same pointer, but it does not go.

Only a value that is given for a variable comes without a map. Its own node gets an entry
where it is put; so nothing is missing as long as nothing is inside it.

Where a directive is put into a place of its own, as an item, a member's value or the
whole value, the map of what it stands for is moved there first, and the entry for the
place itself is written behind it. If no object writes a member again, nothing behind
that writes to the place any more.
-/

namespace Stencil

/-! ## Flat values -/

namespace Json

theorem has_array_cons_iff {items : List Json} {token : String} {rest : List String} :
    (Json.array items).Has (token :: rest) ↔
      ∃ (n : Nat) (item : Json), token = toString n ∧ items[n]? = some item ∧ item.Has rest := by
  constructor
  · intro h
    obtain ⟨n, rfl⟩ : ∃ n, toString n = token := by
      obtain ⟨child, hchild, -⟩ := has_cons_iff.mp h
      obtain ⟨n, hn, -⟩ := Option.bind_eq_some_iff.mp hchild
      exact ⟨n, by simpa using List.find?_some hn⟩
    obtain ⟨item, hitem, hrest⟩ := has_array_iff.mp h
    exact ⟨n, item, rfl, hitem, hrest⟩
  · rintro ⟨n, item, rfl, hitem, hrest⟩
    exact has_array_iff.mpr ⟨item, hitem, hrest⟩

theorem eq_nil_of_has {value : Json} (hflat : value.isFlat = true) {ts : List String}
    (h : value.Has ts) : ts = [] := by
  cases ts with
  | nil => rfl
  | cons token rest =>
      cases value with
      | array items =>
          obtain ⟨n, item, -, hitem, -⟩ := has_array_cons_iff.mp h
          rw [List.isEmpty_iff.mp hflat] at hitem
          cases hitem
      | object members =>
          obtain ⟨child, hchild, -⟩ := has_object_iff.mp h
          rw [List.isEmpty_iff.mp hflat] at hchild
          cases hchild
      | null | bool | number | string => cases h

theorem membersOf_of_isFlat {value : Json} (hflat : value.isFlat = true) :
    value.membersOf = [] := by
  cases value with
  | object members => exact List.isEmpty_iff.mp hflat
  | null | bool | number | string | array => rfl

end Json

theorem Placeholder.isFlat_valueOf {given : List (String × Json)}
    (h : ∀ m ∈ given, m.2.isFlat = true) (expression : String) :
    (Placeholder.valueOf expression given).isFlat = true := by
  rw [valueOf]
  split
  · next value hfind => exact h _ (Assoc.mem_of_find? hfind)
  · dsimp only
    split
    · next value hfind => exact h _ (Assoc.mem_of_find? hfind)
    · cases infer (identifier expression) <;> rfl

/-! ## Names of members -/

theorem nodup_keys_foldl_insert (members list : List (String × Json))
    (h : (Assoc.keys list).Nodup) :
    (Assoc.keys (members.foldl (fun list m => Assoc.insert m.1 m.2 list) list)).Nodup := by
  induction members generalizing list with
  | nil => exact h
  | cons m rest ih => exact ih _ (Assoc.nodup_keys_insert m.1 m.2 h)

/-- Induction on a row of elements alone, from the earlier ones to the last. -/
@[elab_as_elim]
theorem Elements.row_induction {motive : Elements → Prop} (elements : Elements)
    (none : motive .none)
    (add : ∀ earlier place node, motive earlier → motive (.add earlier place node)) :
    motive elements :=
  @Elements.rec (fun _ => True) motive (fun _ => True) (fun _ => trivial) (fun _ => trivial)
    (fun _ => trivial) (fun _ _ => trivial) (fun _ _ => trivial) (fun _ => trivial) none
    (fun earlier place node ih _ => add earlier place node ih) trivial
    (fun _ _ _ _ _ _ => trivial) (fun _ _ _ => trivial) elements

namespace Members

variable {look : Look}

theorem nodup_keys_read (members : Members) : (Assoc.keys (members.read look)).Nodup := by
  induction members using Members.row_induction with
  | none => exact List.nodup_nil
  | add earlier place key node ih =>
      rw [Members.read]
      split
      · exact ih
      · exact Assoc.nodup_keys_insert _ _ ih
  | spread earlier d ih => exact nodup_keys_foldl_insert _ _ ih

end Members

/-! ## Nodes that have an entry -/

/-- Whether every node inside a value has an entry in the map that comes with the value. The
members of the value are different, and its map says nothing of others. -/
structure Covered (x : Json × Option SourceMap) : Prop where
  inside : ∀ ts, x.1.Has ts → ts ≠ [] → ts ∈ SourceMap.tokensOf x.2
  distinct : (Assoc.keys x.1.membersOf).Nodup
  heads : Headed x

theorem covered_of_isFlat {value : Json} (hflat : value.isFlat = true) :
    Covered (value, none) where
  inside ts hts hne := absurd (Json.eq_nil_of_has hflat hts) hne
  distinct := by
    rw [Json.membersOf_of_isFlat hflat]
    exact List.nodup_nil
  heads := headed_of_no_map value

/-- Where a value with members has them put into an object, its entries are those of its map. -/
theorem Covered.mem_spreadTokens {x : Json × Option SourceMap} (hx : Covered x) {name : String}
    {rest : List String} {child : Json} (hfind : Assoc.find? name x.1.membersOf = some child)
    (hrest : child.Has rest) : name :: rest ∈ spreadTokens x := by
  obtain ⟨value, map⟩ := x
  cases value with
  | object members =>
      have hmem : name :: rest ∈ SourceMap.tokensOf map :=
        hx.inside _ (Json.has_object_iff.mpr ⟨child, hfind, hrest⟩) (List.cons_ne_nil _ _)
      cases map with
      | some map => exact hmem
      | none => cases hmem
  | null | bool | number | string | array => cases hfind

section Coverage

variable {look : Look} {L : Law}

theorem find?_foldl_insert_cases {name : String} {child : Json} {members : List (String × Json)}
    (hnodup : (Assoc.keys members).Nodup) (list : List (String × Json))
    (h : Assoc.find? name (members.foldl (fun list m => Assoc.insert m.1 m.2 list) list)
      = some child) :
    Assoc.find? name members = some child ∨ Assoc.find? name list = some child := by
  by_cases hname : name ∈ Assoc.keys members
  · rw [find?_foldl_insert_of_mem members list hname, Assoc.ofList_of_nodup hnodup] at h
    exact Or.inl h
  · rw [find?_foldl_insert members list hname] at h
    exact Or.inr h

mutual

theorem Node.mem_inside (hlook : ∀ d, Covered (look d)) {place : Location} (node : Node)
    (hnode : node.Stands L place) {ts : List String} (h : (node.read look).Has ts) (hne : ts ≠ []) :
    ts ∈ node.inside look := by
  match node with
  | .scalar value => exact absurd (Json.eq_nil_of_has hnode.1 h) hne
  | .text _ | .broken _ => exact absurd (Json.eq_nil_of_has rfl h) hne
  | .directive d => exact (hlook d).inside ts h hne
  | .array elements => exact Elements.mem_inside hlook elements hnode.2 h hne
  | .object members => exact Members.mem_inside hlook members hnode.2 h hne

theorem Elements.mem_inside (hlook : ∀ d, Covered (look d)) (elements : Elements)
    (helements : elements.Stands L) {ts : List String}
    (h : (Json.array (elements.read look)).Has ts) (hne : ts ≠ []) :
    ts ∈ elements.inside look := by
  match elements with
  | .none => exact absurd (Json.eq_nil_of_has rfl h) hne
  | .add earlier place node =>
      rw [Elements.inside]
      rw [Elements.read] at h
      split at h
      · next hbroken =>
          rw [if_pos hbroken]
          exact Elements.mem_inside hlook earlier helements.1 h hne
      · next hbroken =>
          rw [if_neg hbroken]
          dsimp only
          obtain ⟨token, rest, rfl⟩ := List.exists_cons_of_ne_nil hne
          obtain ⟨n, item, rfl, hitem, hrest⟩ := Json.has_array_cons_iff.mp h
          by_cases hn : n < (earlier.read look).length
          · rw [List.getElem?_append_left hn] at hitem
            have hearlier := Elements.mem_inside hlook earlier helements.1
              (Json.has_array_iff.mpr ⟨item, hitem, hrest⟩) hne
            exact List.mem_append_left _ (List.mem_append_left _ hearlier)
          · obtain rfl : n = (earlier.read look).length := by
              obtain ⟨hlt, -⟩ := List.getElem?_eq_some_iff.mp hitem
              rw [List.length_append, List.length_singleton] at hlt
              omega
            obtain rfl : node.read look = item := by simpa using hitem
            cases rest with
            | nil => exact List.mem_append_right _ (List.mem_singleton_self _)
            | cons next rest =>
                have hinside := Node.mem_inside hlook node helements.2 hrest (List.cons_ne_nil _ _)
                exact List.mem_append_left _
                  (List.mem_append_right _ (List.mem_map_of_mem hinside))

theorem Members.mem_inside (hlook : ∀ d, Covered (look d)) (members : Members)
    (hmembers : members.Stands L) {ts : List String}
    (h : (Json.object (members.read look)).Has ts) (hne : ts ≠ []) :
    ts ∈ members.inside look := by
  match members with
  | .none => exact absurd (Json.eq_nil_of_has rfl h) hne
  | .add earlier place key node =>
      obtain ⟨hearlier, -, -, inner, hnode⟩ := hmembers
      rw [Members.inside]
      rw [Members.read] at h
      split at h
      · next hbroken =>
          rw [if_pos hbroken]
          exact Members.mem_inside hlook earlier hearlier h hne
      · next hbroken =>
          rw [if_neg hbroken]
          dsimp only
          obtain ⟨token, rest, rfl⟩ := List.exists_cons_of_ne_nil hne
          obtain ⟨child, hchild, hrest⟩ := Json.has_object_iff.mp h
          rw [Assoc.find?_insert] at hchild
          split at hchild
          · next hname =>
              subst hname
              cases hchild
              cases rest with
              | nil => exact List.mem_append_right _ (List.mem_singleton_self _)
              | cons next rest =>
                  have hinside := Node.mem_inside hlook node hnode hrest (List.cons_ne_nil _ _)
                  exact List.mem_append_left _
                    (List.mem_append_right _ (List.mem_map_of_mem hinside))
          · have hmem := Members.mem_inside hlook earlier hearlier
              (Json.has_object_iff.mpr ⟨child, hchild, hrest⟩) hne
            exact List.mem_append_left _ (List.mem_append_left _ hmem)
  | .spread earlier d =>
      rw [Members.inside]
      rw [Members.read] at h
      obtain ⟨token, rest, rfl⟩ := List.exists_cons_of_ne_nil hne
      obtain ⟨child, hchild, hrest⟩ := Json.has_object_iff.mp h
      rcases find?_foldl_insert_cases (hlook d).distinct _ hchild with hfind | hfind
      · exact List.mem_append_right _ ((hlook d).mem_spreadTokens hfind hrest)
      · have hmem := Members.mem_inside hlook earlier hmembers.1
          (Json.has_object_iff.mpr ⟨child, hfind, hrest⟩) hne
        exact List.mem_append_left _ hmem

end

theorem Node.nodup_keys_read (hlook : ∀ d, Covered (look d)) {place : Location} {node : Node}
    (hnode : node.Stands L place) : (Assoc.keys (node.read look).membersOf).Nodup := by
  cases node with
  | scalar value =>
      rw [Node.read, Json.membersOf_of_isFlat hnode.1]
      exact List.nodup_nil
  | directive d => exact (hlook d).distinct
  | object members => exact members.nodup_keys_read
  | text | array | broken => exact List.nodup_nil

/-- A draft's value has an entry for each of its nodes. -/
theorem Draft.covered (path : Path) {draft : Draft} (hdraft : draft.Stands L)
    (hlook : ∀ d, Covered (look d)) :
    Covered (draft.read look, some (.ofList (draft.entries path look))) ∧
      (draft.read look ≠ .null → [] ∈ (SourceMap.ofList (draft.entries path look)).tokens) := by
  have hheads : Headed (draft.read look, some (.ofList (draft.entries path look))) :=
    draft.headed path fun d => (hlook d).heads
  cases hbody : draft.body with
  | none =>
      have hread : draft.read look = .null := by simp only [Draft.read, hbody]
      rw [hread] at hheads ⊢
      exact ⟨⟨fun ts h hne => absurd (Json.eq_nil_of_has rfl h) hne, List.nodup_nil, hheads⟩,
        fun h => absurd rfl h⟩
  | some body =>
      obtain ⟨place, node⟩ := body
      have hnode := hdraft.body place node hbody
      have hread : draft.read look = node.read look := by simp only [Draft.read, hbody]
      have hentries := draft.tokens_entries path look hbody
      rw [hread] at hheads ⊢
      refine ⟨⟨fun ts h hne => ?_, Node.nodup_keys_read hlook hnode, hheads⟩, fun _ => ?_⟩
      · rw [SourceMap.tokensOf, SourceMap.mem_tokens_ofList, hentries]
        exact List.mem_append_left _ (Node.mem_inside hlook node hnode h hne)
      · rw [SourceMap.mem_tokens_ofList, hentries]
        exact List.mem_append_right _ (List.mem_singleton_self _)

end Coverage

/-! ## The last entry for a pointer -/

namespace SourceMap

theorem get?_insertAll (map : SourceMap) (entries : List Entry) (p : Pointer) :
    (map.insertAll entries).get? p = ((ofList entries).get? p).or (map.get? p) := by
  induction entries generalizing map with
  | nil => rfl
  | cons entry rest ih =>
      have hcons (start : SourceMap) :
          start.insertAll (entry :: rest) = (start.insert entry.1 entry.2).insertAll rest := rfl
      rw [ofList, hcons, hcons, ih, ih (empty.insert entry.1 entry.2), get?_insert, get?_insert,
        Option.or_assoc]
      congr 1
      split <;> rfl

/-- What is written later is found first. -/
theorem get?_ofList_append (first second : List Entry) (p : Pointer) :
    (ofList (first ++ second)).get? p = ((ofList second).get? p).or ((ofList first).get? p) := by
  have happend : ofList (first ++ second) = (ofList first).insertAll second :=
    List.foldl_append
  rw [happend, get?_insertAll]

theorem get?_ofList_single (p q : Pointer) (o : Origin) :
    (ofList [(p, o)]).get? q = if p = q then some o else none := get?_insert empty p q o

theorem mem_keys_iff {map : SourceMap} {ts : List String} :
    ⟨ts⟩ ∈ Assoc.keys map.entries ↔ ts ∈ map.tokens := by
  rw [tokens, List.mem_map]
  refine ⟨fun h => ⟨_, h, rfl⟩, fun h => ?_⟩
  obtain ⟨p, hp, rfl⟩ := h
  exact hp

theorem isSome_get?_iff {map : SourceMap} {ts : List String} :
    (map.get? ⟨ts⟩).isSome ↔ ts ∈ map.tokens := by
  rw [get?, Option.isSome_iff_ne_none, Ne, Assoc.find?_eq_none_iff, not_not, mem_keys_iff]

theorem get?_ofList_eq_none {entries : List Entry} {ts : List String}
    (h : ts ∉ entries.map fun e => e.1.tokens) : (ofList entries).get? ⟨ts⟩ = none := by
  rw [← mem_tokens_ofList, ← isSome_get?_iff] at h
  simpa using h

end SourceMap

/-! ## Where directives are put -/

mutual

/-- The places inside a node where a directive stands for a value, and the directive. -/
def Node.splices (look : Look) : Node → List (List String × Directive)
  | .directive d => [([], d)]
  | .array elements => elements.splices look
  | .object members => members.splices look
  | .scalar _ | .text _ | .broken _ => []

def Elements.splices (look : Look) : Elements → List (List String × Directive)
  | .none => []
  | .add earlier _ node =>
      if node.isBroken then earlier.splices look
      else
        earlier.splices look ++
          (node.splices look).map fun x => (toString (earlier.read look).length :: x.1, x.2)

def Members.splices (look : Look) : Members → List (List String × Directive)
  | .none => []
  | .add earlier _ key node =>
      if node.isBroken then earlier.splices look
      else
        earlier.splices look ++
          (node.splices look).map fun x => (String.ofList (Piece.read look key) :: x.1, x.2)
  | .spread earlier _ => earlier.splices look

end

/-- The places where directives of a template stand for a value of their own. -/
def Draft.splices (look : Look) (draft : Draft) : List (List String × Directive) :=
  match draft.body with
  | none => []
  | some (_, node) => node.splices look

section Splices

variable {look : Look}

theorem Elements.lt_of_mem_splices (elements : Elements) {x : List String × Directive}
    (h : x ∈ elements.splices look) :
    ∃ n rest, x.1 = toString n :: rest ∧ n < (elements.read look).length := by
  induction elements using Elements.row_induction with
  | none => cases h
  | add earlier place node ih =>
      rw [splices] at h
      rw [Elements.read]
      split at h
      · next hbroken =>
          rw [if_pos hbroken]
          exact ih h
      · next hbroken =>
          rw [if_neg hbroken, List.length_append, List.length_singleton]
          rcases List.mem_append.mp h with h | h
          · obtain ⟨n, rest, hx, hn⟩ := ih h
            exact ⟨n, rest, hx, by omega⟩
          · obtain ⟨y, -, rfl⟩ := List.mem_map.mp h
            exact ⟨_, y.1, rfl, by omega⟩

theorem Members.mem_names_of_mem_splices (members : Members) {x : List String × Directive}
    (h : x ∈ members.splices look) :
    ∃ name rest, x.1 = name :: rest ∧ name ∈ members.names look := by
  induction members using Members.row_induction with
  | none => cases h
  | add earlier place key node ih =>
      rw [splices] at h
      rw [names]
      split at h
      · next hbroken =>
          rw [if_pos hbroken]
          exact ih h
      · next hbroken =>
          rw [if_neg hbroken]
          rcases List.mem_append.mp h with h | h
          · obtain ⟨name, rest, hx, hname⟩ := ih h
            exact ⟨name, rest, hx, List.mem_append_left _ hname⟩
          · obtain ⟨y, -, rfl⟩ := List.mem_map.mp h
            exact ⟨_, y.1, rfl, List.mem_append_right _ (List.mem_singleton_self _)⟩
  | spread earlier d ih =>
      obtain ⟨name, rest, hx, hname⟩ := ih h
      exact ⟨name, rest, hx, List.mem_append_left _ hname⟩

mutual

/-- What a directive stands for is where it is put, if no object writes a member again. -/
theorem Node.node?_of_mem_splices (node : Node) (hdistinct : node.Distinct look)
    {x : List String × Directive} (h : x ∈ node.splices look) :
    (node.read look).node? x.1 = some (look x.2).1 := by
  match node with
  | .directive d =>
      obtain rfl := List.mem_singleton.mp h
      rfl
  | .array elements => exact Elements.node?_of_mem_splices elements hdistinct h
  | .object members => exact Members.node?_of_mem_splices members hdistinct.1 hdistinct.2 h
  | .scalar _ | .text _ | .broken _ => cases h

theorem Elements.node?_of_mem_splices (elements : Elements) (hdistinct : elements.Distinct look)
    {x : List String × Directive} (h : x ∈ elements.splices look) :
    (Json.array (elements.read look)).node? x.1 = some (look x.2).1 := by
  match elements with
  | .none => cases h
  | .add earlier place node =>
      rw [Elements.splices] at h
      rw [Elements.read]
      split at h
      · next hbroken =>
          rw [if_pos hbroken]
          exact Elements.node?_of_mem_splices earlier hdistinct.1 h
      · next hbroken =>
          rw [if_neg hbroken]
          rcases List.mem_append.mp h with h | h
          · have hearlier := Elements.node?_of_mem_splices earlier hdistinct.1 h
            obtain ⟨n, rest, hx, hn⟩ := earlier.lt_of_mem_splices h
            rw [hx, Json.node?, Json.child?, Json.itemAt?_toString] at hearlier ⊢
            rwa [List.getElem?_append_left hn]
          · obtain ⟨y, hy, rfl⟩ := List.mem_map.mp h
            have hnode := Node.node?_of_mem_splices node hdistinct.2 hy
            rw [Json.node?, Json.child?, Json.itemAt?_toString,
              List.getElem?_append_right (Nat.le_refl _), Nat.sub_self]
            exact hnode

theorem Members.node?_of_mem_splices (members : Members) (hnodup : (members.names look).Nodup)
    (hdistinct : members.Distinct look) {x : List String × Directive}
    (h : x ∈ members.splices look) :
    (Json.object (members.read look)).node? x.1 = some (look x.2).1 := by
  match members with
  | .none => cases h
  | .add earlier place key node =>
      rw [Members.splices] at h
      rw [Members.names] at hnodup
      rw [Members.read]
      split at h
      · next hbroken =>
          rw [if_pos hbroken] at hnodup ⊢
          exact Members.node?_of_mem_splices earlier hnodup hdistinct.1 h
      · next hbroken =>
          rw [if_neg hbroken] at hnodup ⊢
          obtain ⟨hearlier, -, hdiffer⟩ := List.nodup_append.mp hnodup
          rcases List.mem_append.mp h with h | h
          · have hnode := Members.node?_of_mem_splices earlier hearlier hdistinct.1 h
            obtain ⟨name, rest, hx, hname⟩ := earlier.mem_names_of_mem_splices h
            rw [hx, Json.node?, Json.child?] at hnode ⊢
            rwa [Assoc.find?_insert, if_neg (hdiffer name hname _ (by simp)).symm]
          · obtain ⟨y, hy, rfl⟩ := List.mem_map.mp h
            have hnode := Node.node?_of_mem_splices node hdistinct.2 hy
            rw [Json.node?, Json.child?, Assoc.find?_insert, if_pos rfl]
            exact hnode
  | .spread earlier d =>
      rw [Members.names] at hnodup
      obtain ⟨hearlier, -, hdiffer⟩ := List.nodup_append.mp hnodup
      have hnode := Members.node?_of_mem_splices earlier hearlier hdistinct h
      obtain ⟨name, rest, hx, hname⟩ := earlier.mem_names_of_mem_splices h
      have hnew : name ∉ Assoc.keys (look d).1.membersOf :=
        fun hmem => hdiffer name hname name hmem rfl
      rw [hx, Json.node?, Json.child?] at hnode ⊢
      rwa [Members.read, find?_foldl_insert _ _ hnew]

end

/-- Whether the last of some entries for a pointer is of a file. -/
def Own (path : Path) (entries : List Entry) (ts : List String) : Prop :=
  ∃ o, (SourceMap.ofList entries).get? ⟨ts⟩ = some o ∧ o.file = path.text

variable {path : Path} {first second : List Entry} {ts : List String}

theorem Own.append_right (h : Own path first ts) (hts : ts ∉ second.map fun e => e.1.tokens) :
    Own path (first ++ second) ts := by
  obtain ⟨o, ho, hfile⟩ := h
  refine ⟨o, ?_, hfile⟩
  rw [SourceMap.get?_ofList_append, SourceMap.get?_ofList_eq_none hts, Option.none_or, ho]

theorem Own.append_left (h : Own path second ts) : Own path (first ++ second) ts := by
  obtain ⟨o, ho, hfile⟩ := h
  exact ⟨o, by rw [SourceMap.get?_ofList_append, ho, Option.some_or], hfile⟩

/-- The entry of a place is behind the entries of what is inside. -/
theorem own_at {entries : List Entry} {q : Pointer} {o : Origin} (ho : o.file = path.text)
    (h : ts ≠ [] → Own path entries (q.tokens ++ ts)) :
    Own path (entries ++ [(q, o)]) (q.tokens ++ ts) := by
  cases ts with
  | nil =>
      rw [List.append_nil]
      refine Own.append_left ⟨o, ?_, ho⟩
      rw [SourceMap.get?_ofList_single, if_pos rfl]
  | cons token rest =>
      refine (h (List.cons_ne_nil _ _)).append_right fun hmem => ?_
      exact absurd (List.append_right_eq_self.mp (List.mem_singleton.mp hmem))
        (List.cons_ne_nil _ _)

/-- Another child's entries are elsewhere. -/
theorem not_mem_tokens_child {p : Pointer} {token other : String} (h : token ≠ other)
    (rest : List String) (node : Node) (o : Origin) :
    p.tokens ++ token :: rest ∉
      (node.entries path look (p.key other) ++ [(p.key other, o)]).map fun e => e.1.tokens := by
  rw [List.map_append, Node.tokens_entries]
  intro hmem
  rcases List.mem_append.mp hmem with hmem | hmem
  · obtain ⟨inner, -, hinner⟩ := List.mem_map.mp hmem
    simp [Pointer.key, h.symm] at hinner
  · simp [Pointer.key, h] at hmem

mutual

theorem Node.own_of_mem_splices (hlook : ∀ d, Covered (look d)) (p : Pointer) (node : Node)
    (hdistinct : node.Distinct look) {x : List String × Directive} (h : x ∈ node.splices look)
    (hne : x.1 ≠ []) : Own path (node.entries path look p) (p.tokens ++ x.1) := by
  match node with
  | .directive d =>
      obtain rfl := List.mem_singleton.mp h
      exact absurd rfl hne
  | .array elements => exact Elements.own_of_mem_splices hlook p elements hdistinct h
  | .object members => exact Members.own_of_mem_splices hlook p members hdistinct.1 hdistinct.2 h
  | .scalar _ | .text _ | .broken _ => cases h

theorem Elements.own_of_mem_splices (hlook : ∀ d, Covered (look d)) (p : Pointer)
    (elements : Elements) (hdistinct : elements.Distinct look) {x : List String × Directive}
    (h : x ∈ elements.splices look) :
    Own path (elements.entries path look p) (p.tokens ++ x.1) := by
  match elements with
  | .none => cases h
  | .add earlier place node =>
      rw [Elements.splices] at h
      rw [Elements.entries]
      split at h
      · next hbroken =>
          rw [if_pos hbroken]
          exact Elements.own_of_mem_splices hlook p earlier hdistinct.1 h
      · next hbroken =>
          rw [if_neg hbroken]
          dsimp only
          rw [List.append_assoc]
          rcases List.mem_append.mp h with h | h
          · have hearlier := Elements.own_of_mem_splices hlook p earlier hdistinct.1 h
            obtain ⟨n, rest, hx, hn⟩ := earlier.lt_of_mem_splices h
            rw [hx] at hearlier ⊢
            have hother : toString n ≠ toString (earlier.read look).length :=
              fun e => absurd (Json.toString_inj.mp e) (by omega)
            exact hearlier.append_right (not_mem_tokens_child hother rest node _)
          · obtain ⟨y, hy, rfl⟩ := List.mem_map.mp h
            have hnode : Own path _ _ := own_at (o := .ofLocation path.text place node.kind) rfl
              (Node.own_of_mem_splices hlook (p.index (earlier.read look).length) node
                hdistinct.2 hy)
            rw [Pointer.index, Pointer.key, List.append_assoc] at hnode
            exact hnode.append_left

theorem Members.own_of_mem_splices (hlook : ∀ d, Covered (look d)) (p : Pointer)
    (members : Members) (hnodup : (members.names look).Nodup) (hdistinct : members.Distinct look)
    {x : List String × Directive} (h : x ∈ members.splices look) :
    Own path (members.entries path look p) (p.tokens ++ x.1) := by
  match members with
  | .none => cases h
  | .add earlier place key node =>
      rw [Members.splices] at h
      rw [Members.names] at hnodup
      rw [Members.entries]
      split at h
      · next hbroken =>
          rw [if_pos hbroken] at hnodup ⊢
          exact Members.own_of_mem_splices hlook p earlier hnodup hdistinct.1 h
      · next hbroken =>
          rw [if_neg hbroken] at hnodup ⊢
          obtain ⟨hearlier, -, hdiffer⟩ := List.nodup_append.mp hnodup
          dsimp only
          rw [List.append_assoc]
          rcases List.mem_append.mp h with h | h
          · have hown := Members.own_of_mem_splices hlook p earlier hearlier hdistinct.1 h
            obtain ⟨name, rest, hx, hname⟩ := earlier.mem_names_of_mem_splices h
            rw [hx] at hown ⊢
            exact hown.append_right
              (not_mem_tokens_child (hdiffer name hname _ (by simp)) rest node _)
          · obtain ⟨y, hy, rfl⟩ := List.mem_map.mp h
            have hnode : Own path _ _ := own_at (o := .ofLocation path.text place .literal) rfl
              (Node.own_of_mem_splices hlook (p.key (String.ofList (Piece.read look key))) node
                hdistinct.2 hy)
            rw [Pointer.key, List.append_assoc] at hnode
            exact hnode.append_left
  | .spread earlier d =>
      rw [Members.names] at hnodup
      rw [Members.entries]
      obtain ⟨hearlier, -, hdiffer⟩ := List.nodup_append.mp hnodup
      have hown := Members.own_of_mem_splices hlook p earlier hearlier hdistinct h
      obtain ⟨name, rest, hx, hname⟩ := earlier.mem_names_of_mem_splices h
      rw [hx] at hown ⊢
      refine hown.append_right fun hmem => ?_
      rw [tokens_spreadEntries] at hmem
      obtain ⟨ts, hts, hsame⟩ := List.mem_map.mp hmem
      rw [List.append_cancel_left hsame] at hts
      exact hdiffer name hname name ((hlook d).heads name rest hts) rfl

end

/-- Where a directive is put, the template's own map has an entry of its file. -/
theorem Draft.own_of_mem_splices (hlook : ∀ d, Covered (look d)) {draft : Draft}
    (hdistinct : draft.Distinct look) {x : List String × Directive} (h : x ∈ draft.splices look) :
    (draft.read look).node? x.1 = some (look x.2).1 ∧ Own path (draft.entries path look) x.1 := by
  unfold Draft.Distinct at hdistinct
  unfold Draft.splices at h
  unfold Draft.read Draft.entries
  cases hbody : draft.body with
  | none =>
      rw [hbody] at h
      cases h
  | some body =>
      obtain ⟨place, node⟩ := body
      rw [hbody] at hdistinct h
      exact ⟨node.node?_of_mem_splices hdistinct h,
        own_at (q := .root) rfl (node.own_of_mem_splices hlook .root hdistinct h)⟩

end Splices

/-! ## Extractions -/

/-- Whether every node of what has been assembled has an entry, the root unless it is null. -/
structure Assembled.Covered (a : Assembled) : Prop where
  nodes : Stencil.Covered (a.value, some a.map)
  root : a.value ≠ .null → [] ∈ a.map.tokens

theorem Assembled.covered_nothing : Assembled.nothing.Covered where
  nodes :=
    { inside := fun _ h hne => absurd (Json.eq_nil_of_has rfl h) hne
      distinct := List.nodup_nil
      heads := fun _ _ h => absurd h List.not_mem_nil }
  root h := absurd rfl h

theorem Assembled.Covered.isSome_get? {a : Assembled} (h : a.Covered) {ts : List String}
    (hhas : a.value.Has ts) (hts : ts ≠ [] ∨ a.value ≠ .null) : (a.map.get? ⟨ts⟩).isSome := by
  rw [SourceMap.isSome_get?_iff]
  by_cases hne : ts = []
  · subst hne
    exact h.root (hts.resolve_left fun h => h rfl)
  · exact h.nodes.inside ts hhas hne

theorem Look.Grounded.covered {look : Look} {given : List (String × Json)}
    (h : look.Grounded given Assembled.Covered) (hflat : ∀ m ∈ given, m.2.isFlat = true)
    (d : Directive) : Covered (look d) := by
  rcases h d with ⟨a, ha, hd⟩ | hd | ⟨expression, hd⟩
  · rw [hd]
    exact ha.nodes
  · rw [hd]
    exact covered_of_isFlat rfl
  · rw [hd]
    exact covered_of_isFlat (Placeholder.isFlat_valueOf hflat expression)

namespace Setting

variable {s : Setting} {root : Path} {text? : Option String} {depth : Nat} {trail : List Path}
  {path : Path} {text : String} {w : Watch}

theorem covered_of_assembles (hmap : s.options.buildSourceMap = true)
    (hflat : ∀ m ∈ s.options.defaultValues, m.2.isFlat = true)
    (h : s.Assembles root text? depth trail path text w) :
    (s.assembleText path text (s.follow depth trail path) w).value.Covered := by
  refine h.holds Assembled.covered_nothing fun depth trail path text w _ _ hlook => ?_
  have hdraft : (Draft.ofTokens (Scan.ofText text).tokens).Stands (.ofDirectives fun _ => True) :=
    Draft.stands_of_directives fun _ _ => trivial
  have hcovered := Draft.covered path hdraft (hlook.covered hflat)
  rw [readWith, hmap, if_pos rfl]
  exact ⟨hcovered.1, hcovered.2⟩

end Setting

/-- If nothing is inside the values given for variables, every node of an extraction's value has an
entry in its map, the root unless it is null. Wherever an object of a text writes no member again,
the text's own map has an entry of its own file where a directive is put. -/
theorem Extraction.map_covers (s : Setting) (root : Path) (text? : Option String)
    (hmap : s.options.buildSourceMap = true)
    (hflat : ∀ m ∈ s.options.defaultValues, m.2.isFlat = true) :
    (∀ ts, (Extraction.run s root text?).value.Has ts →
      ts ≠ [] ∨ (Extraction.run s root text?).value ≠ .null →
        ((Extraction.run s root text?).map.get? ⟨ts⟩).isSome) ∧
    ∀ depth trail path text w, s.Assembles root text? depth trail path text w →
      (Scan.ofText text).error = none →
      (Draft.ofTokens (Scan.ofText text).tokens).Distinct (s.lookAt depth trail path text w) →
      ∀ x ∈ (Draft.ofTokens (Scan.ofText text).tokens).splices (s.lookAt depth trail path text w),
        let assembled := (s.assembleText path text (s.follow depth trail path) w).value
        assembled.value.node? x.1 = some (s.lookAt depth trail path text w x.2).1 ∧
          ∃ o, assembled.map.get? ⟨x.1⟩ = some o ∧ o.file = path.text := by
  constructor
  · intro ts hhas hts
    have hcovered : Assembled.Covered
        ⟨(Extraction.run s root text?).value, (Extraction.run s root text?).map⟩ :=
      Setting.holds_run Assembled.covered_nothing
        fun _ _ _ _ _ h => Setting.covered_of_assembles hmap hflat h
    exact hcovered.isSome_get? hhas hts
  · intro depth trail path text w h hscan hdistinct x hx
    have hlook := h.grounded Assembled.covered_nothing hscan
      fun _ _ _ _ _ _ h' => Setting.covered_of_assembles hmap hflat h'
    rw [Setting.value_assembleText hscan, Setting.readWith, hmap, if_pos rfl]
    exact Draft.own_of_mem_splices (hlook.covered hflat) hdistinct hx

namespace Shelf

/-- A text that puts a link's value into a member, a list and a member again, and breaks off. -/
def splicedText : String :=
  "\x7b\"a\": // [X](x)\n, \"b\": [\x7b\x7b x \x7d\x7d], \"c\": \x7b\x7b n \x7d\x7d, \"d\""

def spliced : Shelf :=
  ⟨[(⟨"/p/root.tmpl"⟩, splicedText), (⟨"/p/x.tmpl"⟩, "\x7b\"k\": [1, 2]\x7d")]⟩

end Shelf

/-- The link's value has its entries at all places, and each place has one of the text's own. -/
theorem Extraction.map_covers_spliced :
    let s := Shelf.spliced.setting (.standard ⟨"/p"⟩)
    let e := Extraction.run s ⟨"root.tmpl"⟩ none
    s.options.buildSourceMap = true ∧ (∀ m ∈ s.options.defaultValues, m.2.isFlat = true) ∧
      e.value.Has ["b", "0", "k", "1"] ∧ (e.map.get? ⟨["b", "0", "k", "1"]⟩).isSome ∧
      ∀ ts ∈ [["a"], ["b", "0"], ["c"]],
        ∃ o, e.map.get? ⟨ts⟩ = some o ∧ o.file = "/p/root.tmpl" := by
  intro s e
  have hflat : ∀ m ∈ s.options.defaultValues, m.2.isFlat = true := by decide +kernel
  have hopens : s.Opens ⟨"root.tmpl"⟩ none ⟨"/p/root.tmpl"⟩ Shelf.splicedText _ :=
    .file (by decide +kernel) (by decide +kernel)
  have hmap : e.map = _ := hopens.map_eq
  obtain ⟨hcovers, hsplices⟩ := Extraction.map_covers s ⟨"root.tmpl"⟩ none rfl hflat
  have hhas : e.value.Has ["b", "0", "k", "1"] := by decide +kernel
  refine ⟨rfl, hflat, hhas, hcovers _ hhas (Or.inl (by decide)), fun ts hts => ?_⟩
  have hplaces : ((Draft.ofTokens (Scan.ofText Shelf.splicedText).tokens).splices
      (s.lookAt s.options.maxImportDepth [⟨"/p/root.tmpl"⟩] ⟨"/p/root.tmpl"⟩ Shelf.splicedText
        (Run.read s.loader s.signal ⟨"/p/root.tmpl"⟩ (Run.initialWatch s.signal)).watch)).map
          Prod.fst = [["a"], ["b", "0"], ["c"]] := by
    decide +kernel
  rw [← hplaces] at hts
  obtain ⟨x, hx, rfl⟩ := List.mem_map.mp hts
  have hown := hsplices _ _ _ _ _ (.root hopens) (by decide +kernel) (by decide +kernel) x hx
  obtain ⟨o, ho, hfile⟩ := hown.2
  exact ⟨o, hmap ▸ ho, hfile⟩

end Stencil
