/-!
# Association lists that remember the order of first insertion

Object members, source maps and caches are all tables whose keys are unique and
whose order is visible. They share one representation, a list of pairs, and one
rule: writing under a key that is already present replaces the value where it
stands, and a new key goes to the end. The lemmas say exactly that, once for the
keys and once for look-up.
-/

namespace Stencil.Assoc

variable {κ : Type u} {ν : Type v}

/-- The keys, in order. -/
def keys (table : List (κ × ν)) : List κ := table.map Prod.fst

@[simp] theorem keys_nil : keys ([] : List (κ × ν)) = [] := rfl

@[simp] theorem keys_cons (k : κ) (v : ν) (rest : List (κ × ν)) :
    keys ((k, v) :: rest) = k :: keys rest := rfl

variable [DecidableEq κ]

/-- The value stored first under `key`. -/
def find? (key : κ) : List (κ × ν) → Option ν
  | [] => none
  | (k, v) :: rest => if k = key then some v else find? key rest

/-- Writes `value` under `key`: in place when the key is present, else at the end. -/
def insert (key : κ) (value : ν) : List (κ × ν) → List (κ × ν)
  | [] => [(key, value)]
  | (k, v) :: rest =>
      if k = key then (key, value) :: rest else (k, v) :: insert key value rest

/-- Builds a table by writing the pairs in order. -/
def ofList (pairs : List (κ × ν)) : List (κ × ν) :=
  pairs.foldl (fun table pair => insert pair.1 pair.2 table) []

theorem keys_insert (key : κ) (value : ν) (table : List (κ × ν)) :
    keys (insert key value table) =
      if key ∈ keys table then keys table else keys table ++ [key] := by
  induction table with
  | nil => simp [insert, keys]
  | cons pair rest ih =>
      obtain ⟨k, v⟩ := pair
      by_cases h : k = key
      · subst h; simp [insert]
      · have h' : ¬ key = k := fun e => h e.symm
        by_cases hm : key ∈ keys rest <;> simp [insert, h, h', ih, hm]

theorem mem_keys_insert {key other : κ} {value : ν} {table : List (κ × ν)} :
    other ∈ keys (insert key value table) ↔ other = key ∨ other ∈ keys table := by
  rw [keys_insert]
  split
  · next hmem => exact ⟨Or.inr, fun h => h.elim (fun heq => heq ▸ hmem) id⟩
  · rw [List.mem_append, List.mem_singleton, or_comm]

theorem nodup_keys_insert (key : κ) (value : ν) {table : List (κ × ν)}
    (h : (keys table).Nodup) : (keys (insert key value table)).Nodup := by
  rw [keys_insert]
  split
  · exact h
  · next hm =>
      rw [List.nodup_append]
      refine ⟨h, by simp, ?_⟩
      intro a ha b hb heq
      simp only [List.mem_singleton] at hb
      exact hm (hb ▸ heq ▸ ha)

theorem find?_insert (key other : κ) (value : ν) (table : List (κ × ν)) :
    find? other (insert key value table) =
      if key = other then some value else find? other table := by
  induction table with
  | nil => simp [insert, find?]
  | cons pair rest ih =>
      obtain ⟨k, v⟩ := pair
      by_cases h : k = key
      · subst h
        by_cases ho : k = other <;> simp [insert, find?, ho]
      · by_cases ho : k = other
        · subst ho
          have hk : ¬ key = k := fun e => h e.symm
          simp [insert, find?, h, hk]
        · simp [insert, find?, h, ho, ih]

theorem find?_eq_none_iff (key : κ) (table : List (κ × ν)) :
    find? key table = none ↔ key ∉ keys table := by
  induction table with
  | nil => simp [find?]
  | cons pair rest ih =>
      obtain ⟨k, v⟩ := pair
      by_cases h : k = key
      · simp [find?, h]
      · have h' : ¬ key = k := fun e => h e.symm
        simp [find?, h, h', ih]

theorem mem_of_find? {key : κ} {value : ν} {table : List (κ × ν)}
    (h : find? key table = some value) : (key, value) ∈ table := by
  induction table with
  | nil => cases h
  | cons pair rest ih =>
      obtain ⟨k, v⟩ := pair
      rw [find?] at h
      split at h
      · next hk => cases h; subst hk; exact List.mem_cons_self
      · exact List.mem_cons_of_mem _ (ih h)

/-- Under different keys everything is found. -/
theorem find?_eq_some_iff {key : κ} {value : ν} {table : List (κ × ν)} (h : (keys table).Nodup) :
    find? key table = some value ↔ (key, value) ∈ table := by
  refine ⟨mem_of_find?, fun hmem => ?_⟩
  induction table with
  | nil => cases hmem
  | cons pair rest ih =>
      obtain ⟨k, v⟩ := pair
      rw [keys_cons, List.nodup_cons] at h
      rcases List.mem_cons.mp hmem with heq | hrest
      · cases heq
        rw [find?, if_pos rfl]
      · have hkey : k ≠ key := fun heq => h.1 (heq ▸ List.mem_map_of_mem hrest)
        rw [find?, if_neg hkey, ih h.2 hrest]

theorem mem_insert {key k : κ} {value v : ν} {table : List (κ × ν)}
    (h : (k, v) ∈ insert key value table) : (k = key ∧ v = value) ∨ (k, v) ∈ table := by
  induction table with
  | nil => exact Or.inl (by simpa [insert] using h)
  | cons pair rest ih =>
      obtain ⟨k', v'⟩ := pair
      rw [insert] at h
      split at h
      · rcases List.mem_cons.mp h with h | h
        · exact Or.inl (by simpa using h)
        · exact Or.inr (List.mem_cons_of_mem _ h)
      · rcases List.mem_cons.mp h with h | h
        · exact Or.inr (h ▸ List.mem_cons_self)
        · exact (ih h).imp_right (List.mem_cons_of_mem _)

/-- A new key goes to the end. -/
theorem insert_of_not_mem {key : κ} (value : ν) {table : List (κ × ν)} (h : key ∉ keys table) :
    insert key value table = table ++ [(key, value)] := by
  induction table with
  | nil => rfl
  | cons pair rest ih =>
      obtain ⟨k, v⟩ := pair
      rw [keys_cons, List.mem_cons, not_or] at h
      rw [insert, if_neg (Ne.symm h.1), ih h.2, List.cons_append]

/-- Different keys go to the end one after another. -/
theorem foldl_insert_of_nodup {table more : List (κ × ν)} (h : (keys table ++ keys more).Nodup) :
    more.foldl (fun table pair => insert pair.1 pair.2 table) table = table ++ more := by
  induction more generalizing table with
  | nil => rw [List.foldl_nil, List.append_nil]
  | cons pair more ih =>
      obtain ⟨key, value⟩ := pair
      rw [keys_cons] at h
      have hkey : key ∉ keys table := fun hmem =>
        (List.nodup_append.mp h).2.2 key hmem key List.mem_cons_self rfl
      have hkeys : keys (table ++ [(key, value)]) = keys table ++ [key] := by simp [keys]
      rw [List.foldl_cons, insert_of_not_mem value hkey, ih, List.append_assoc,
        List.singleton_append]
      rwa [hkeys, List.append_assoc, List.singleton_append]

/-- What is in a table was there before or was written. -/
theorem mem_foldl_insert {pair : κ × ν} {table more : List (κ × ν)}
    (h : pair ∈ more.foldl (fun table pair => insert pair.1 pair.2 table) table) :
    pair ∈ table ∨ pair ∈ more := by
  induction more generalizing table with
  | nil => exact Or.inl h
  | cons first more ih =>
      rcases ih h with htable | hmore
      · rcases mem_insert (k := pair.1) (v := pair.2) htable with ⟨hkey, hvalue⟩ | htable
        · exact Or.inr (Prod.ext hkey hvalue ▸ List.mem_cons_self)
        · exact Or.inl htable
      · exact Or.inr (List.mem_cons_of_mem _ hmore)

theorem mem_of_mem_ofList {pair : κ × ν} {pairs : List (κ × ν)} (h : pair ∈ ofList pairs) :
    pair ∈ pairs :=
  (mem_foldl_insert h).resolve_left List.not_mem_nil

theorem ofList_of_nodup {pairs : List (κ × ν)} (h : (keys pairs).Nodup) : ofList pairs = pairs := by
  have hkeys : (keys ([] : List (κ × ν)) ++ keys pairs).Nodup := h
  exact foldl_insert_of_nodup hkeys

end Stencil.Assoc
