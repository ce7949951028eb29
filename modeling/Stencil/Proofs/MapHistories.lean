import Mathlib.Data.List.Nodup
import Stencil.Proofs.PointerTexts
import Stencil.SourceMap

/-!
# The history of a map

A map is built by writing single entries and by hanging other maps below a pointer, and these
came about in the same way. All that was done to it comes to one row of writes, in which a map
that was hung below a pointer counts as its entries, one after the other, with the pointer in
front; and of the row only two things are left. Pointers stand in the order in which they were
first written (`firstWrites`), and each has the origin that was last written for it
(`lastWrite?`).

Writing once keeps this (`Records.insert`), so writing a row keeps it, and so does every step of
a history. What is looked up, and where, can then be said of the writes alone
(`Records.lookup?_eq_some_iff`). Main statement: `History.map_eq_settled`.
-/

namespace Stencil

namespace Assoc

variable {κ : Type u} {ν : Type v} [DecidableEq κ]

/-- A table is its keys, each with what is found for it. -/
theorem eq_filterMap_find? {table : List (κ × ν)} (h : (keys table).Nodup) :
    table = (keys table).filterMap fun key => (find? key table).map fun value => (key, value) := by
  induction table with
  | nil => rfl
  | cons pair rest ih =>
      obtain ⟨k, v⟩ := pair
      rw [keys_cons, List.nodup_cons] at h
      have hrest : (keys rest).filterMap
            (fun key => (find? key ((k, v) :: rest)).map fun value => (key, value)) =
          (keys rest).filterMap fun key => (find? key rest).map fun value => (key, value) := by
        refine List.filterMap_congr fun key hkey => ?_
        have hne : k ≠ key := fun e => h.1 (e ▸ hkey)
        rw [find?, if_neg hne]
      rw [keys_cons, List.filterMap_cons, find?, if_pos rfl, hrest, ← ih h.2]
      rfl

end Assoc

namespace Pointer

theorem join_assoc (p q r : Pointer) : (p.join q).join r = p.join (q.join r) := by
  simp [join]

theorem join_right_injective (p : Pointer) : Function.Injective p.join := by
  rintro ⟨first⟩ ⟨second⟩ h
  simpa [join] using h

end Pointer

namespace SourceMap

section Rows

variable {map : SourceMap} {writes : List (Pointer × Origin)} {p q : Pointer} {o : Origin}

/-! ## Writing -/

theorem get?_insert (map : SourceMap) (p q : Pointer) (o : Origin) :
    (map.insert p o).get? q = if p = q then some o else map.get? q :=
  Assoc.find?_insert p q o map.entries

/-- Entries for different pointers all stay in a map. -/
theorem entries_ofList {entries : List (Pointer × Origin)} (h : (entries.map Prod.fst).Nodup) :
    (ofList entries).entries = entries := by
  have hfold (map : SourceMap) : (map.insertAll entries).entries =
      entries.foldl (fun list entry => Assoc.insert entry.1 entry.2 list) map.entries := by
    clear h
    induction entries generalizing map with
    | nil => rfl
    | cons entry rest ih => exact ih _
  rw [ofList, hfold]
  exact Assoc.ofList_of_nodup h

/-- A map that is hung below a pointer of an empty one is moved there and nothing else. -/
theorem entries_extend_empty (p : Pointer) (map : SourceMap) :
    (empty.extend p map).entries = map.moved p := by
  refine entries_ofList ?_
  have hkeys : (map.moved p).map Prod.fst = (Assoc.keys map.entries).map p.join := by
    simp [moved, Assoc.keys, Function.comp_def]
  rw [hkeys]
  exact map.nodup.map p.join_right_injective

/-- Moving twice is moving once. -/
theorem entries_extend_extend (p q : Pointer) (map : SourceMap) :
    (empty.extend p (empty.extend q map)).entries = (empty.extend (p.join q) map).entries := by
  rw [entries_extend_empty, entries_extend_empty, moved, entries_extend_empty, moved, moved,
    List.map_map]
  exact List.map_congr_left fun entry _ => by
    rw [Function.comp_apply, Pointer.join_assoc]

/-! ## What is left of a row of writes -/

/-- The pointers that were written, in the order of their first writes. -/
def firstWrites (writes : List (Pointer × Origin)) : List Pointer :=
  (writes.map Prod.fst).eraseDups

/-- What was last written for a pointer. -/
def lastWrite? (writes : List (Pointer × Origin)) (p : Pointer) : Option Origin :=
  (writes.findRev? fun w => w.1 = p).map Prod.snd

/-- What the writes come to. -/
def settled (writes : List (Pointer × Origin)) : List (Pointer × Origin) :=
  (firstWrites writes).filterMap fun p => (lastWrite? writes p).map fun o => (p, o)

theorem firstWrites_concat (writes : List (Pointer × Origin)) (p : Pointer) (o : Origin) :
    firstWrites (writes ++ [(p, o)]) =
      if p ∈ firstWrites writes then firstWrites writes else firstWrites writes ++ [p] := by
  simp only [firstWrites, List.map_append, List.map_cons, List.map_nil, List.eraseDups_append,
    List.mem_eraseDups]
  split
  · next h => simp [List.removeAll, h]
  · next h => simp [List.removeAll, h, List.eraseDups_cons]

theorem lastWrite?_concat (writes : List (Pointer × Origin)) (p q : Pointer) (o : Origin) :
    lastWrite? (writes ++ [(p, o)]) q = if p = q then some o else lastWrite? writes q := by
  simp only [lastWrite?, List.findRev?_eq_find?_reverse, List.reverse_append,
    List.reverse_singleton, List.singleton_append, List.find?_cons]
  split
  · next h => simp_all
  · next h => simp_all

/-- Whether what is left of a row of writes is what a map holds. -/
structure Records (map : SourceMap) (writes : List (Pointer × Origin)) : Prop where
  keys : Assoc.keys map.entries = firstWrites writes
  get? : ∀ p, map.get? p = lastWrite? writes p

theorem records_empty : empty.Records [] := ⟨rfl, fun _ => rfl⟩

namespace Records

theorem insert (h : map.Records writes) (p : Pointer) (o : Origin) :
    (map.insert p o).Records (writes ++ [(p, o)]) where
  keys := by rw [SourceMap.insert, Assoc.keys_insert, h.keys, firstWrites_concat]
  get? q := by rw [get?_insert, h.get?, lastWrite?_concat]

theorem insertAll (h : map.Records writes) (more : List (Pointer × Origin)) :
    (map.insertAll more).Records (writes ++ more) := by
  induction more generalizing map writes with
  | nil => rwa [List.append_nil]
  | cons w more ih =>
      have hstep := ih (h.insert w.1 w.2)
      rwa [List.append_assoc, List.singleton_append] at hstep

theorem entries (h : map.Records writes) : map.entries = settled writes := by
  have htable := Assoc.eq_filterMap_find? map.nodup
  rw [h.keys] at htable
  rw [htable, settled]
  exact List.filterMap_congr fun p _ => congrArg _ (h.get? p)

/-- The entries of a map are found under their own pointers. -/
theorem mem_entries_iff (h : map.Records writes) :
    (p, o) ∈ map.entries ↔ map.get? p = some o := by
  refine ⟨fun hmem => ?_, Assoc.mem_of_find?⟩
  rw [h.entries, settled, List.mem_filterMap] at hmem
  obtain ⟨q, -, hq⟩ := hmem
  obtain ⟨o', ho, heq⟩ := Option.map_eq_some_iff.mp hq
  cases heq
  rw [h.get?, ho]

end Records

theorem isSome_lastWrite?_iff : (lastWrite? writes p).isSome ↔ ∃ w ∈ writes, w.1 = p := by
  simp [lastWrite?, List.find?_isSome]

/-! ## Looking up -/

/-- Where nothing was written for a pointer itself, what is above it is asked. -/
theorem lookup?_eq_or (map : SourceMap) (p : Pointer) :
    map.lookup? p = ((map.get? p).map fun o => (p, o)).or (p.parent?.bind map.lookup?) := by
  rw [lookup?, Pointer.ancestors_eq_cons, List.findSome?_cons]
  cases map.get? p with
  | some o => rfl
  | none => cases p.parent? <;> rfl

/-- Whether `q` is the longest pointer, by whole tokens, among `p` and what is above it that was
written. -/
structure Nearest (writes : List (Pointer × Origin)) (p q : Pointer) : Prop where
  written : ∃ w ∈ writes, w.1 = q
  above : q.tokens <+: p.tokens
  longest : ∀ w ∈ writes, w.1.tokens <+: p.tokens → w.1.tokens.length ≤ q.tokens.length

theorem nearest_self (h : ∃ w ∈ writes, w.1 = p) : Nearest writes p q ↔ q = p := by
  constructor
  · intro hq
    obtain ⟨w, hw, rfl⟩ := h
    have hlength := hq.longest w hw List.prefix_rfl
    exact congrArg Pointer.mk (hq.above.eq_of_length_le hlength)
  · rintro rfl
    exact ⟨h, List.prefix_rfl, fun w _ habove => habove.length_le⟩

/-- What is above a pointer that was not written is above its parent. -/
theorem nearest_concat {front : List String} {token : String}
    (h : ¬ ∃ w ∈ writes, w.1 = ⟨front ++ [token]⟩) :
    Nearest writes ⟨front ++ [token]⟩ q ↔ Nearest writes ⟨front⟩ q := by
  have habove (r : Pointer) (hr : ∃ w ∈ writes, w.1 = r) :
      r.tokens <+: front ++ [token] ↔ r.tokens <+: front := by
    refine ⟨fun hprefix => ?_, fun hprefix => hprefix.trans (List.prefix_append _ _)⟩
    rcases List.prefix_concat_iff.mp hprefix with heq | hprefix
    · exact absurd (heq ▸ hr) h
    · exact hprefix
  constructor
  · rintro ⟨hwritten, hq, hlongest⟩
    exact ⟨hwritten, (habove q hwritten).mp hq,
      fun w hw hprefix => hlongest w hw ((habove w.1 ⟨w, hw, rfl⟩).mpr hprefix)⟩
  · rintro ⟨hwritten, hq, hlongest⟩
    exact ⟨hwritten, (habove q hwritten).mpr hq,
      fun w hw hprefix => hlongest w hw ((habove w.1 ⟨w, hw, rfl⟩).mp hprefix)⟩

namespace Records

theorem written_of_get? (h : map.Records writes) (hget : map.get? p = some o) :
    ∃ w ∈ writes, w.1 = p :=
  isSome_lastWrite?_iff.mp (by rw [← h.get?, hget]; rfl)

/-- The look-up finds what was last written for the longest pointer that was written, at or above
the one that is looked up. -/
theorem lookup?_eq_some_iff (h : map.Records writes) :
    map.lookup? p = some (q, o) ↔ Nearest writes p q ∧ lastWrite? writes q = some o := by
  have hhere {p : Pointer} {o' : Origin} (hget : map.get? p = some o') :
      some (p, o') = some (q, o) ↔ Nearest writes p q ∧ lastWrite? writes q = some o := by
    rw [nearest_self (h.written_of_get? hget), ← h.get?]
    constructor
    · intro heq
      cases heq
      exact ⟨rfl, hget⟩
    · rintro ⟨rfl, ho⟩
      cases hget.symm.trans ho
      rfl
  have hnone {p : Pointer} (hget : map.get? p = none) : ¬ ∃ w ∈ writes, w.1 = p := by
    rw [← isSome_lastWrite?_iff, ← h.get?, hget]
    exact Bool.false_ne_true
  obtain ⟨tokens⟩ := p
  induction tokens using List.reverseRecOn with
  | nil =>
      rw [lookup?_eq_or]
      cases hget : map.get? ⟨[]⟩ with
      | some o' => exact hhere hget
      | none =>
          refine iff_of_false (fun hfind => by cases hfind) ?_
          rintro ⟨⟨hwritten, habove, -⟩, -⟩
          have hroot : q = ⟨[]⟩ := congrArg Pointer.mk (List.prefix_nil.mp habove)
          exact hnone hget (hroot ▸ hwritten)
  | append_singleton front token ih =>
      have hparent : Pointer.parent? ⟨front ++ [token]⟩ = some ⟨front⟩ := by
        simp [Pointer.parent?]
      rw [lookup?_eq_or]
      cases hget : map.get? ⟨front ++ [token]⟩ with
      | some o' => exact hhere hget
      | none =>
          rw [nearest_concat (hnone hget), hparent]
          exact ih

theorem lookup?_eq_none_iff (h : map.Records writes) :
    map.lookup? p = none ↔ ∀ w ∈ writes, ¬ w.1.tokens <+: p.tokens := by
  have hnone (q : Pointer) : map.get? q = none ↔ ∀ w ∈ writes, w.1 ≠ q := by
    rw [h.get?, ← Option.not_isSome_iff_eq_none, isSome_lastWrite?_iff]
    exact ⟨fun hnot w hw hsame => hnot ⟨w, hw, hsame⟩, fun hall ⟨w, hw, hsame⟩ => hall w hw hsame⟩
  rw [lookup?, Pointer.ancestors_eq, List.findSome?_eq_none_iff]
  simp only [List.mem_map, List.mem_reverse, List.mem_inits, Option.map_eq_none_iff, hnone]
  constructor
  · intro hall w hw hprefix
    exact hall w.1 ⟨w.1.tokens, hprefix, rfl⟩ w hw rfl
  · rintro hall _ ⟨tokens, hprefix, rfl⟩ w hw hsame
    exact hall w hw (by rwa [hsame])

end Records

end Rows

/-! ## Histories -/

/-- How a map came about. -/
inductive History where
  | empty
  | insert (earlier : History) (p : Pointer) (o : Origin)
  | extend (earlier : History) (p : Pointer) (other : History)

namespace History

def map : History → SourceMap
  | .empty => .empty
  | .insert earlier p o => earlier.map.insert p o
  | .extend earlier p other => earlier.map.extend p other.map

/-- All that was written: a map that was hung below a pointer is written entry by entry, each in
its place, with the pointer in front and the origin as it is. -/
def writes : History → List (Pointer × Origin)
  | .empty => []
  | .insert earlier p o => earlier.writes ++ [(p, o)]
  | .extend earlier p other =>
      earlier.writes ++ (settled other.writes).map fun w => (p.join w.1, w.2)

theorem records_writes (h : History) : h.map.Records h.writes := by
  induction h with
  | empty => exact records_empty
  | insert earlier p o ih => exact ih.insert p o
  | extend earlier p other ih ihOther =>
      rw [map, writes, SourceMap.extend, moved, ihOther.entries]
      exact ih.insertAll _

/-- What a map holds, in what order, and what is looked up in it, is what its history wrote. Moving
it below one pointer and then below another is moving it below the two joined. -/
theorem map_eq_settled (h : History) :
    h.map.entries = settled h.writes ∧
    Assoc.keys h.map.entries = firstWrites h.writes ∧
    (∀ p o, (p, o) ∈ h.map.entries ↔ h.map.get? p = some o) ∧
    (∀ p, h.map.get? p = lastWrite? h.writes p) ∧
    (∀ p q o, h.map.lookup? p = some (q, o) ↔
      Nearest h.writes p q ∧ lastWrite? h.writes q = some o) ∧
    (∀ p, h.map.lookup? p = none ↔ ∀ w ∈ h.writes, ¬ w.1.tokens <+: p.tokens) ∧
    ∀ p q, (SourceMap.empty.extend p (SourceMap.empty.extend q h.map)).entries =
      (SourceMap.empty.extend (p.join q) h.map).entries := by
  have hrecords := h.records_writes
  exact ⟨hrecords.entries, hrecords.keys, fun _ _ => hrecords.mem_entries_iff, hrecords.get?,
    fun _ _ _ => hrecords.lookup?_eq_some_iff, fun _ => hrecords.lookup?_eq_none_iff,
    fun p q => entries_extend_extend p q h.map⟩

end History

end SourceMap

end Stencil
