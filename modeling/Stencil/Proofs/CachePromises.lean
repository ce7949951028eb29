import Mathlib.Data.Set.Card
import Stencil.Proofs.CacheCoherence

/-!
# What the operations of a cache promise

A cache answers requests, each at a moment of its own and with the files as they are then. What
an operation may do is said here without the cache's own tests. An entry is fresh while it is no
older than the lifetime and every file that its extraction asked for gives, read now, a text with
the recorded digest, or still gives none. A fresh entry is what both looking up and inserting
give, as the same object; an entry that is not fresh is refused by the one and replaced by the
other. Nothing else changes what is kept, but for evicting, which goes by the lifetime alone, and
clearing.

For one thing the moments have to follow each other. An insertion leaves an entry alone that was
made in the same moment or later, so an entry that is not fresh gives way only if it is older than
the request. That all entries are, that a key has one entry and an object a number of its own, is
what every operation keeps (`WellKept.step`), and so it is true at every moment of a session.
-/

namespace Stencil

/-- Whether a file is, read now, as it was recorded. -/
def Dependency.Stands (loader : Loader) (d : Dependency) : Prop :=
  match d.digest with
  | some digest => ∃ text, loader.read d.path = .ok text ∧ Digest.ofText text = digest
  | none => ∃ error, loader.read d.path = .error error

/-- Whether the root's file is found and has a text. -/
def Setting.FindsRoot (s : Setting) (root path : Path) (text : String) : Prop :=
  s.loader.canonicalize (s.options.placeOf root) = .ok path ∧ s.loader.read path = .ok text

theorem Setting.FindsRoot.unique {s : Setting} {root path path' : Path} {text text' : String}
    (h : s.FindsRoot root path text) (h' : s.FindsRoot root path' text') :
    path = path' ∧ text = text' := by
  obtain rfl : path = path' := Except.ok.inj (h.1.symm.trans h'.1)
  exact ⟨rfl, Except.ok.inj (h.2.symm.trans h'.2)⟩

namespace Assoc

variable {κ : Type u} {ν : Type v} [DecidableEq κ] {table : List (κ × ν)}

/-- A table with different keys has as many pairs as keys. -/
theorem ncard_eq_length (h : (keys table).Nodup) :
    Set.ncard {key | ∃ value, find? key table = some value} = table.length := by
  have hset : {key | ∃ value, find? key table = some value} = ↑(keys table).toFinset := by
    ext key
    rw [Set.mem_ofPred_eq, ← Option.isSome_iff_exists, Option.isSome_iff_ne_none,
      Ne, find?_eq_none_iff, not_not, Finset.mem_coe, List.mem_toFinset]
  rw [hset, Set.ncard_coe_finset, List.toFinset_card_of_nodup h, keys, List.length_map]

end Assoc

namespace Cache

variable {c c' : Cache} {loader : Loader} {now : Nat} {key : String} {kept : Kept}

/-! ## What is kept -/

def find? (c : Cache) (key : String) : Option Entry := Assoc.find? key c.entries

/-- Whether an entry is no older than the lifetime. -/
def Young (c : Cache) (now : Nat) (entry : Entry) : Prop :=
  ∀ lifetime, c.lifetime = some lifetime → now ≤ entry.inserted + lifetime

structure Fresh (c : Cache) (loader : Loader) (now : Nat) (entry : Entry) : Prop where
  young : c.Young now entry
  stands : ∀ d ∈ entry.kept.extraction.ledger.dependencies, d.Stands loader

/-- Whether an object is kept under a key by a fresh entry. -/
def Serves (c : Cache) (loader : Loader) (now : Nat) (key : String) (kept : Kept) : Prop :=
  ∃ entry, c.find? key = some entry ∧ c.Fresh loader now entry ∧ entry.kept = kept

theorem isExpired_eq_false_iff {entry : Entry} :
    c.isExpired now entry = false ↔ c.Young now entry := by
  unfold isExpired Young
  cases c.lifetime with
  | none => simp
  | some lifetime =>
      simp only [decide_eq_false_iff_not, Nat.not_lt, Option.some.injEq, forall_eq']
      omega

theorem isCurrent_eq_true_iff {d : Dependency} : isCurrent loader d = true ↔ d.Stands loader := by
  unfold isCurrent Dependency.Stands
  cases hread : loader.read d.path with
  | error error => cases d.digest <;> simp [Except.toOption]
  | ok text => cases d.digest <;> simp [Except.toOption]

theorem isFresh_iff {entry : Entry} :
    c.isFresh loader now entry = true ↔ c.Fresh loader now entry := by
  rw [isFresh, Bool.and_eq_true, Bool.not_eq_true', isExpired_eq_false_iff, List.all_eq_true]
  simp only [isCurrent_eq_true_iff]
  exact ⟨fun h => ⟨h.1, h.2⟩, fun h => ⟨h.1, h.2⟩⟩

theorem get?_eq_some_iff : c.get? loader now key = some kept ↔ c.Serves loader now key kept := by
  unfold get? Serves find?
  cases Assoc.find? key c.entries with
  | none => simp
  | some entry => simp [isFresh_iff]

theorem get?_eq_none_iff :
    c.get? loader now key = none ↔ ¬ ∃ kept, c.Serves loader now key kept := by
  simp only [← get?_eq_some_iff, ← Option.isSome_iff_exists, Option.not_isSome_iff_eq_none]

/-- What is fresh is kept and given, whatever was to be inserted. -/
theorem insert_of_serves (h : c.Serves loader now key kept) (e : Extraction) :
    c.insert loader now key e = (kept, c) := by
  obtain ⟨entry, hentry, hfresh, rfl⟩ := h
  unfold find? at hentry
  simp only [insert, hentry, if_pos (Or.inl (isFresh_iff.mpr hfresh))]

/-! ## What is promised -/

/-- An extraction is inserted: what is fresh stays and is given, and else the extraction is kept
under the key from now on and given as a new object. -/
structure Inserted (c : Cache) (loader : Loader) (now : Nat) (key : String) (e : Extraction)
    (kept : Kept) (c' : Cache) : Prop where
  others : ∀ other, other ≠ key → c'.find? other = c.find? other
  served : ∀ old, c.Serves loader now key old → kept = old ∧ c' = c
  stored : (¬ ∃ old, c.Serves loader now key old) →
    kept = ⟨c.next, e⟩ ∧ c'.find? key = some ⟨kept, now⟩

/-- An extraction is asked for: what is fresh under the root's key is given, and else a new one is
made, which is kept if the root was read and nothing was called off. -/
structure Extracted (c : Cache) (s : Setting) (now : Nat) (root : Path) (kept : Kept)
    (c' : Cache) : Prop where
  unreadable : (¬ ∃ path text, s.FindsRoot root path text) →
    kept = ⟨c.next, .run s root none⟩ ∧ c'.entries = c.entries
  cancelled : (∃ p ∈ kept.extraction.problems, p.kind = .cancelled) → c'.entries = c.entries
  served : ∀ path text, s.FindsRoot root path text →
    ∀ old, c.Serves s.loader now (Cache.key path text s.options) old → kept = old ∧ c' = c
  made : ∀ path text, s.FindsRoot root path text →
    (¬ ∃ old, c.Serves s.loader now (Cache.key path text s.options) old) →
      kept = ⟨c.next, .run s root none⟩
  stored : ∀ path text, s.FindsRoot root path text →
    (∀ p ∈ kept.extraction.problems, p.kind ≠ .cancelled) →
      c.Inserted s.loader now (Cache.key path text s.options) (.run s root none) kept c'

/-- What is older than the lifetime is dropped and counted. -/
structure Evicted (c : Cache) (now : Nat) (number : Nat) (c' : Cache) : Prop where
  left : ∀ key entry, c'.find? key = some entry ↔ c.find? key = some entry ∧ c.Young now entry
  counted : number = Set.ncard {key | ∃ entry, c.find? key = some entry ∧ ¬ c.Young now entry}

/-- One operation. -/
inductive Request where
  | get (key : String)
  | insert (key : String) (e : Extraction)
  | extract (o : Options) (signal : Signal) (root : Path)
  | evict
  | clear
  | size
  | isEmpty

def Request.Answer : Request → Type
  | .get _ => Option Kept
  | .insert .. | .extract .. => Kept
  | .evict | .size => Nat
  | .clear => Unit
  | .isEmpty => Bool

/-- The object that an answer holds. -/
def Request.kept? : (r : Request) → r.Answer → Option Kept
  | .get _, found? => found?
  | .insert .., kept | .extract .., kept => some kept
  | .evict, _ | .clear, _ | .size, _ | .isEmpty, _ => none

def perform (c : Cache) (now : Nat) (loader : Loader) : (r : Request) → r.Answer × Cache
  | .get key => (c.get? loader now key, c)
  | .insert key e => c.insert loader now key e
  | .extract o signal root => c.extract ⟨o, loader, signal⟩ now root
  | .evict => c.evict now
  | .clear => ((), c.clear)
  | .size => (c.size, c)
  | .isEmpty => (c.isEmpty, c)

/-- What an operation promises of its answer and of what is kept then. -/
def Promised (c : Cache) (now : Nat) (loader : Loader) : (r : Request) → r.Answer → Cache → Prop
  | .get key, found?, c' => c' = c ∧ ∀ kept, found? = some kept ↔ c.Serves loader now key kept
  | .insert key e, kept, c' => c.Inserted loader now key e kept c'
  | .extract o signal root, kept, c' => c.Extracted ⟨o, loader, signal⟩ now root kept c'
  | .evict, number, c' => c.Evicted now number c'
  | .clear, _, c' => ∀ key, c'.find? key = none
  | .size, number, c' => c' = c ∧ number = Set.ncard {key | ∃ entry, c.find? key = some entry}
  | .isEmpty, isEmpty, c' => c' = c ∧ (isEmpty = true ↔ ∀ key, c.find? key = none)

/-! ## Caches in use -/

/-- What is true of a cache that has handed out the objects `Issued` before the moment `time`. -/
structure WellKept (lifetime : Option Nat) (time : Nat) (Issued : Kept → Prop) (c : Cache) :
    Prop where
  lifetime : c.lifetime = lifetime
  nodup : (Assoc.keys c.entries).Nodup
  earlier : ∀ pair ∈ c.entries, pair.2.inserted < time
  issued : ∀ pair ∈ c.entries, Issued pair.2.kept
  numbered : ∀ kept, Issued kept → kept.serial < c.next
  distinct : ∀ kept other, Issued kept → Issued other → kept.serial = other.serial → kept = other

variable {lifetime : Option Nat} {time : Nat} {Issued : Kept → Prop}

theorem wellKept_empty (lifetime : Option Nat) (time : Nat) :
    (empty lifetime).WellKept lifetime time fun _ => False :=
  ⟨rfl, List.nodup_nil, fun _ h => absurd h List.not_mem_nil, fun _ h => absurd h List.not_mem_nil,
    fun _ h => h.elim, fun _ _ h => h.elim⟩

/-- There is only one object to serve. -/
theorem Serves.unique {old : Kept} (h : c.Serves loader now key kept)
    (h' : c.Serves loader now key old) : kept = old :=
  Option.some_inj.mp ((get?_eq_some_iff.mpr h).symm.trans (get?_eq_some_iff.mpr h'))

namespace WellKept

theorem inserted (h : c.WellKept lifetime now Issued) (loader : Loader) (key : String)
    (e : Extraction) :
    c.Inserted loader now key e (c.insert loader now key e).1 (c.insert loader now key e).2 := by
  by_cases hserves : ∃ old, c.Serves loader now key old
  · obtain ⟨old, hold⟩ := hserves
    rw [insert_of_serves hold]
    exact ⟨fun _ _ => rfl, fun other hother => ⟨hold.unique hother, rfl⟩,
      fun hnone => absurd ⟨old, hold⟩ hnone⟩
  · rw [insert_of_get?_eq_none (get?_eq_none_iff.mpr hserves) h.earlier]
    refine ⟨fun other hother => ?_, fun old hold => absurd ⟨old, hold⟩ hserves, fun _ => ⟨rfl, ?_⟩⟩
    · rw [find?, Assoc.find?_insert, if_neg (Ne.symm hother), find?]
    · rw [find?, Assoc.find?_insert, if_pos rfl]

theorem extracted (h : c.WellKept lifetime now Issued) (s : Setting) (root : Path) :
    c.Extracted s now root (c.extract s now root).1 (c.extract s now root).2 := by
  rcases c.extract_cases s now root with
    ⟨hout, hwhy⟩ | ⟨path, text, hcanon, hread, ⟨old, hget, hout⟩ | ⟨hget, hcalm, hout⟩⟩
  · -- Nothing is kept: either there is no root, or the new extraction was called off.
    rw [hout]
    refine ⟨fun _ => ⟨rfl, rfl⟩, fun _ => rfl, fun path text hfinds old hold => ?_,
      fun _ _ _ _ => rfl, fun path text hfinds hcalm => ?_⟩
    · exact absurd ⟨old, hold⟩ (get?_eq_none_iff.mp (hwhy path text hfinds.1 hfinds.2).1)
    · obtain ⟨p, hp, hkind⟩ := (hwhy path text hfinds.1 hfinds.2).2
      exact absurd hkind (hcalm p hp)
  · have hserves := get?_eq_some_iff.mp hget
    have hinsert := h.inserted s.loader (Cache.key path text s.options) (.run s root none)
    rw [insert_of_serves hserves] at hinsert
    rw [hout]
    refine ⟨fun hnone => absurd ⟨path, text, hcanon, hread⟩ hnone, fun _ => rfl, ?_, ?_, ?_⟩
    all_goals
      intro path' text' hfinds
      obtain ⟨rfl, rfl⟩ := hfinds.unique ⟨hcanon, hread⟩
    · exact fun old hold => ⟨hserves.unique hold, rfl⟩
    · exact fun hnone => absurd ⟨_, hserves⟩ hnone
    · exact fun _ => hinsert
  · have hinsert := h.inserted s.loader (Cache.key path text s.options) (.run s root none)
    have hkept := (hinsert.stored (get?_eq_none_iff.mp hget)).1
    rw [hout]
    refine ⟨fun hnone => absurd ⟨path, text, hcanon, hread⟩ hnone, ?_, ?_, ?_, ?_⟩
    · rintro ⟨p, hp, hkind⟩
      rw [hkept] at hp
      exact absurd hkind (hcalm p hp)
    all_goals
      intro path' text' hfinds
      obtain ⟨rfl, rfl⟩ := hfinds.unique ⟨hcanon, hread⟩
    · exact hinsert.served
    · exact fun _ => hkept
    · exact fun _ => hinsert

theorem evicted (h : c.WellKept lifetime now Issued) :
    c.Evicted now (c.evict now).1 (c.evict now).2 := by
  have hkeys (p : String × Entry → Bool) : (Assoc.keys (c.entries.filter p)).Nodup :=
    h.nodup.sublist (List.filter_sublist.map _)
  refine ⟨fun key entry => ?_, ?_⟩
  · rw [find?, find?, evict, Assoc.find?_eq_some_iff (hkeys _), Assoc.find?_eq_some_iff h.nodup,
      List.mem_filter, Bool.not_eq_true', isExpired_eq_false_iff]
  · have hset : {key | ∃ entry, c.find? key = some entry ∧ ¬ c.Young now entry} =
        {key | ∃ entry, Assoc.find? key (c.entries.filter fun pair => c.isExpired now pair.2) =
          some entry} := by
      ext key
      simp only [Set.mem_ofPred_eq, find?, Assoc.find?_eq_some_iff (hkeys _),
        Assoc.find?_eq_some_iff h.nodup, List.mem_filter, ← isExpired_eq_false_iff,
        Bool.not_eq_false]
    have hlength := List.length_eq_length_filter_add (l := c.entries)
      fun pair => c.isExpired now pair.2
    rw [hset, Assoc.ncard_eq_length (hkeys _), evict]
    dsimp only
    omega

/-- Every operation keeps its promise in the moment after what was kept before. -/
theorem promised (h : c.WellKept lifetime now Issued) (loader : Loader) (r : Request) :
    c.Promised now loader r (c.perform now loader r).1 (c.perform now loader r).2 := by
  cases r with
  | get key => exact ⟨rfl, fun kept => get?_eq_some_iff⟩
  | insert key e => exact h.inserted loader key e
  | extract o signal root => exact h.extracted ⟨o, loader, signal⟩ root
  | evict => exact h.evicted
  | clear => exact fun key => rfl
  | size => exact ⟨rfl, (Assoc.ncard_eq_length h.nodup).symm⟩
  | isEmpty =>
      refine ⟨rfl, ?_⟩
      simp only [find?, Assoc.find?_eq_none_iff]
      rw [← List.eq_nil_iff_forall_not_mem, Assoc.keys, List.map_eq_nil_iff]
      exact List.isEmpty_iff

end WellKept

/-! ## Sessions of operations -/

/-- How an operation changes a cache: entries may go, and an object that is handed out is one that
is kept already or has the next number. -/
inductive Moves (c : Cache) (now : Nat) : Option Kept → Cache → Prop
  | fewer {found? : Option Kept} {entries : List (String × Entry)}
      (hfound : ∀ kept, found? = some kept → ∃ pair ∈ c.entries, pair.2.kept = kept)
      (hsub : entries.Sublist c.entries) : Moves c now found? { c with entries }
  | handedOut (e : Extraction) : Moves c now (some ⟨c.next, e⟩) { c with next := c.next + 1 }
  | stored (key : String) (e : Extraction) :
      Moves c now (some ⟨c.next, e⟩)
        ⟨Assoc.insert key ⟨⟨c.next, e⟩, now⟩ c.entries, c.next + 1, c.lifetime⟩

theorem Serves.moves (h : c.Serves loader now key kept) : c.Moves now (some kept) c := by
  obtain ⟨entry, hentry, -, rfl⟩ := h
  refine .fewer (fun kept hkept => ?_) (List.Sublist.refl _)
  cases hkept
  exact ⟨_, Assoc.mem_of_find? hentry, rfl⟩

theorem WellKept.moves_insert (h : c.WellKept lifetime now Issued) (loader : Loader) (key : String)
    (e : Extraction) :
    c.Moves now (some (c.insert loader now key e).1) (c.insert loader now key e).2 := by
  by_cases hserves : ∃ old, c.Serves loader now key old
  · obtain ⟨old, hold⟩ := hserves
    rw [insert_of_serves hold]
    exact hold.moves
  · rw [insert_of_get?_eq_none (get?_eq_none_iff.mpr hserves) h.earlier]
    exact .stored key e

theorem WellKept.moves (h : c.WellKept lifetime now Issued) (loader : Loader) (r : Request) :
    c.Moves now (r.kept? (c.perform now loader r).1) (c.perform now loader r).2 := by
  have hsame : c.Moves now none c := .fewer (fun _ h => nomatch h) (List.Sublist.refl _)
  cases r with
  | get key =>
      cases hget : c.get? loader now key with
      | none => simpa only [perform, Request.kept?, hget] using hsame
      | some kept =>
          simpa only [perform, Request.kept?, hget] using (get?_eq_some_iff.mp hget).moves
  | insert key e => exact h.moves_insert loader key e
  | extract o signal root =>
      rw [perform, Request.kept?]
      rcases c.extract_cases ⟨o, loader, signal⟩ now root with
        ⟨hout, -⟩ | ⟨path, text, -, -, ⟨old, hget, hout⟩ | ⟨-, -, hout⟩⟩
      · rw [hout]
        exact .handedOut _
      · rw [hout]
        exact (get?_eq_some_iff.mp hget).moves
      · rw [hout]
        exact h.moves_insert loader _ _
  | evict => exact .fewer (fun _ h => nomatch h) List.filter_sublist
  | clear => exact .fewer (fun _ h => nomatch h) (List.nil_sublist _)
  | size => exact hsame
  | isEmpty => exact hsame

/-- The next number is one that nothing has yet. -/
theorem WellKept.handOut (h : c.WellKept lifetime now Issued) (e : Extraction)
    (hlater : now < time) :
    WellKept lifetime time (fun kept => Issued kept ∨ kept = ⟨c.next, e⟩)
      { c with next := c.next + 1 } := by
  refine ⟨h.lifetime, h.nodup, fun pair hpair => (h.earlier pair hpair).trans hlater,
    fun pair hpair => Or.inl (h.issued pair hpair), fun kept hkept => ?_,
    fun kept other hkept hother hserial => ?_⟩
  · rcases hkept with hkept | rfl
    · exact Nat.lt_succ_of_lt (h.numbered kept hkept)
    · exact Nat.lt_succ_self _
  · rcases hkept with hkept | rfl <;> rcases hother with hother | rfl
    · exact h.distinct kept other hkept hother hserial
    · exact absurd hserial (Nat.ne_of_lt (h.numbered kept hkept))
    · exact absurd hserial.symm (Nat.ne_of_lt (h.numbered other hother))
    · rfl

theorem WellKept.step (h : c.WellKept lifetime now Issued) {found? : Option Kept}
    (hmoves : c.Moves now found? c') (hlater : now < time) :
    c'.WellKept lifetime time fun kept => Issued kept ∨ found? = some kept := by
  cases hmoves with
  | fewer hfound hsub =>
      have hissued (kept : Kept) (hkept : Issued kept ∨ found? = some kept) : Issued kept := by
        rcases hkept with hkept | hkept
        · exact hkept
        · obtain ⟨pair, hpair, rfl⟩ := hfound kept hkept
          exact h.issued pair hpair
      exact ⟨h.lifetime, h.nodup.sublist (hsub.map _),
        fun pair hpair => (h.earlier pair (hsub.subset hpair)).trans hlater,
        fun pair hpair => Or.inl (h.issued pair (hsub.subset hpair)),
        fun kept hkept => h.numbered kept (hissued kept hkept),
        fun kept other hkept hother => h.distinct kept other (hissued kept hkept)
          (hissued other hother)⟩
  | handedOut e => simpa only [Option.some.injEq, eq_comm] using h.handOut e hlater
  | stored key e =>
      have hout := h.handOut e hlater
      simp only [Option.some.injEq, eq_comm (a := Kept.mk c.next e)]
      refine ⟨hout.lifetime, Assoc.nodup_keys_insert _ _ h.nodup, fun pair hpair => ?_,
        fun pair hpair => ?_, hout.numbered, hout.distinct⟩
      · rcases Assoc.mem_insert hpair with ⟨-, hvalue⟩ | hold
        · rwa [hvalue]
        · exact hout.earlier pair hold
      · rcases Assoc.mem_insert hpair with ⟨-, hvalue⟩ | hold
        · rw [hvalue]
          exact Or.inr rfl
        · exact hout.issued pair hold

/-- An operation with the time it takes place at and the files as they are then. -/
structure Moment where
  time : Nat
  loader : Loader
  request : Request

/-- The cache after a row of operations, from the empty one. -/
def after (lifetime : Option Nat) (history : List Moment) : Cache :=
  history.foldl (fun c m => (c.perform m.time m.loader m.request).2) (empty lifetime)

/-- Whether an object was handed out in a row of operations. -/
def Issues (lifetime : Option Nat) (history : List Moment) (kept : Kept) : Prop :=
  ∃ earlier m, earlier ++ [m] <+: history ∧
    m.request.kept? ((after lifetime earlier).perform m.time m.loader m.request).1 = some kept

variable {history : List Moment}

theorem after_concat (lifetime : Option Nat) (history : List Moment) (m : Moment) :
    after lifetime (history ++ [m]) =
      ((after lifetime history).perform m.time m.loader m.request).2 := by
  rw [after, List.foldl_append, List.foldl_cons, List.foldl_nil, after]

theorem issues_concat_iff {m : Moment} : Issues lifetime (history ++ [m]) kept ↔
    Issues lifetime history kept ∨
      m.request.kept? ((after lifetime history).perform m.time m.loader m.request).1 =
        some kept := by
  constructor
  · rintro ⟨earlier, m', hprefix, hfound⟩
    rcases List.prefix_concat_iff.mp hprefix with heq | hprefix
    · obtain ⟨rfl, rfl⟩ := List.append_singleton_inj.mp heq
      exact Or.inr hfound
    · exact Or.inl ⟨earlier, m', hprefix, hfound⟩
  · rintro (⟨earlier, m', hprefix, hfound⟩ | hfound)
    · exact ⟨earlier, m', hprefix.trans (List.prefix_append _ _), hfound⟩
    · exact ⟨history, m, List.prefix_refl _, hfound⟩

theorem wellKept_after (lifetime : Option Nat)
    (hclock : history.Pairwise fun m n => m.time < n.time)
    (hlater : ∀ m ∈ history, m.time < time) :
    (after lifetime history).WellKept lifetime time (Issues lifetime history) := by
  induction history using List.reverseRecOn generalizing time with
  | nil =>
      have hnone : Issues lifetime [] = fun _ => False := by
        funext kept
        refine propext ⟨?_, False.elim⟩
        rintro ⟨earlier, m, hprefix, -⟩
        simp at hprefix
      rw [hnone]
      exact wellKept_empty lifetime time
  | append_singleton history m ih =>
      obtain ⟨hearlier, -, hlast⟩ := List.pairwise_append.mp hclock
      have hkept := ih hearlier fun m' hm' => hlast m' hm' m (List.mem_singleton_self m)
      have hissues : Issues lifetime (history ++ [m]) = fun kept => Issues lifetime history kept ∨
          m.request.kept? ((after lifetime history).perform m.time m.loader m.request).1 =
            some kept := funext fun kept => propext issues_concat_iff
      rw [after_concat, hissues]
      exact hkept.step (hkept.moves m.loader m.request) (hlater m (by simp))

/-- At every moment of a session an operation keeps its promise. An object that is handed out is
the same as an earlier one or has a number that none had before. -/
theorem operations_keep_their_promises {lifetime : Option Nat} {history : List Moment}
    {next : Moment} (hclock : (history ++ [next]).Pairwise fun m n => m.time < n.time) :
    let c := after lifetime history
    let out := c.perform next.time next.loader next.request
    c.Promised next.time next.loader next.request out.1 out.2 ∧
      (c.lifetime = lifetime ∧ out.2.lifetime = lifetime) ∧
      (∀ kept, Issues lifetime history kept → kept.serial < c.next) ∧
      (∀ key entry, out.2.find? key = some entry → Issues lifetime (history ++ [next]) entry.kept) ∧
      ∀ kept other, Issues lifetime (history ++ [next]) kept →
        Issues lifetime (history ++ [next]) other → kept.serial = other.serial → kept = other := by
  intro c out
  obtain ⟨hearlier, -, hlast⟩ := List.pairwise_append.mp hclock
  have hbefore : ∀ m ∈ history, m.time < next.time :=
    fun m hm => hlast m hm next (List.mem_singleton_self next)
  have hkept : c.WellKept lifetime next.time (Issues lifetime history) :=
    wellKept_after lifetime hearlier hbefore
  have hthen : out.2.WellKept lifetime (next.time + 1) (Issues lifetime (history ++ [next])) := by
    have hend : ∀ m ∈ history ++ [next], m.time < next.time + 1 := by
      intro m hm
      rcases List.mem_append.mp hm with hm | hm
      · exact Nat.lt_succ_of_lt (hbefore m hm)
      · rw [List.mem_singleton.mp hm]
        exact Nat.lt_succ_self _
    have hafter := wellKept_after lifetime hclock hend
    rwa [after_concat] at hafter
  exact ⟨hkept.promised next.loader next.request, ⟨hkept.lifetime, hthen.lifetime⟩, hkept.numbered,
    fun key entry hentry => hthen.issued _ (Assoc.mem_of_find? hentry), hthen.distinct⟩

/-- As long after its making as the lifetime says, an entry is kept instead of what is inserted;
one moment later it is dropped. -/
theorem operations_keep_their_promises_expiring :
    let nothing : Loader := ⟨.ok, fun path => .error (.missing path)⟩
    let e : Extraction := ⟨.null, .empty, {}⟩
    let history : List Moment :=
      [⟨1, nothing, .insert "a" e⟩, ⟨3, nothing, .insert "b" e⟩, ⟨6, nothing, .insert "a" e⟩]
    let next : Moment := ⟨7, nothing, .evict⟩
    let c := after (some 5) history
    ((history ++ [next]).Pairwise fun m n => m.time < n.time) ∧
      Set.ncard {key | ∃ entry, c.find? key = some entry ∧ ¬ c.Young 7 entry} = 1 ∧
      (c.evict 7).2.find? "a" = none := by
  intro nothing e history next c
  have hclock : (history ++ [next]).Pairwise fun m n => m.time < n.time := by
    simp [history, next]
  have hevicted : c.Evicted 7 (c.evict 7).1 (c.evict 7).2 :=
    (@operations_keep_their_promises (some 5) history next hclock).1
  exact ⟨hclock, hevicted.counted.symm, rfl⟩

end Cache

end Stencil
