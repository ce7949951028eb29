import Stencil.Cache
import Stencil.Proofs.Agreement

/-!
# When a cache serves what an extraction would give

A cache serves an extraction again while the files it asked for are as they were. A
session is any row of extractions, changes of the shelf, clearing, evicting and
waiting. Whatever a cache keeps in a session is what an extraction gave from a shelf
that was there at some time, under the key of its own root, text and options. So what
is served is right, if that extraction would come out the same from the shelf as it is
now.

By the comparison of two runs it does, unless a file is gone that the extraction asked
for without saying so. The ledger names every file that was read and every file that
was not there, but a link that is refused because of its depth is followed as far as
finding its file, and that the file was there is not written down. If such a file goes,
the cache goes on serving a problem that an extraction would no longer report.

An assumption about time goes into the sessions: the clock moves on with every extraction
(`Session.step`). The program reads a clock that never goes back but may show one instant
twice.
-/

namespace Stencil

/-! ## What a ledger says about files -/

/-- Whether a ledger that is written at the end of a trail accounts for the files of its
records. -/
structure Shelf.Accounts (S : Shelf) (trail : List Path) (l : Ledger) : Prop where
  missing : ∀ r ∈ l.imports, ¬ S.Holds r.resolved → .absent r.resolved ∈ l.dependencies
  absent : ∀ p, .absent p ∈ l.dependencies → ¬ S.Holds p
  seen : ∀ r ∈ l.imports, (∃ d ∈ l.dependencies, d.path = r.resolved) ∨ r.resolved ∈ trail ∨
    ∃ p ∈ l.problems, p.isTooDeep = true

namespace Shelf

variable {S S' : Shelf} {o : Options} {root : Path} {trail : List Path}

theorem Accounts.append {a b : Ledger} (ha : S.Accounts trail a) (hb : S.Accounts trail b) :
    S.Accounts trail (a ++ b) := by
  refine ⟨fun r hr hmissing => ?_, fun p hp => ?_, fun r hr => ?_⟩
  · rcases List.mem_append.mp hr with hr | hr
    · exact List.mem_append_left _ (ha.missing r hr hmissing)
    · exact List.mem_append_right _ (hb.missing r hr hmissing)
  · rcases List.mem_append.mp hp with hp | hp
    · exact ha.absent p hp
    · exact hb.absent p hp
  · rcases List.mem_append.mp hr with hr | hr
    · rcases ha.seen r hr with ⟨d, hd, hpath⟩ | htrail | ⟨p, hp, hdeep⟩
      · exact Or.inl ⟨d, List.mem_append_left _ hd, hpath⟩
      · exact Or.inr (Or.inl htrail)
      · exact Or.inr (Or.inr ⟨p, List.mem_append_left _ hp, hdeep⟩)
    · rcases hb.seen r hr with ⟨d, hd, hpath⟩ | htrail | ⟨p, hp, hdeep⟩
      · exact Or.inl ⟨d, List.mem_append_right _ hd, hpath⟩
      · exact Or.inr (Or.inl htrail)
      · exact Or.inr (Or.inr ⟨p, List.mem_append_right _ hp, hdeep⟩)

theorem accounts_of_imports {l : Ledger} (himports : l.imports = [])
    (habsent : ∀ p, .absent p ∈ l.dependencies → ¬ S.Holds p) : S.Accounts trail l := by
  refine ⟨fun r hr => ?_, habsent, fun r hr => ?_⟩
  · rw [himports] at hr
    cases hr
  · rw [himports] at hr
    cases hr

theorem accounts_absent {l : Ledger} {target : Path} (himports : l.imports = [])
    (hdependencies : l.dependencies = [.absent target]) (hmissing : ¬ S.Holds target) :
    S.Accounts trail l := by
  refine accounts_of_imports himports fun p hp => ?_
  rw [hdependencies] at hp
  obtain rfl : p = target := congrArg Dependency.path (List.mem_singleton.mp hp)
  exact hmissing

theorem Accounts.record {r : ImportRecord} {l : Ledger} (hl : S.Accounts trail l)
    (hmissing : ¬ S.Holds r.resolved → .absent r.resolved ∈ l.dependencies)
    (hseen : (∃ d ∈ l.dependencies, d.path = r.resolved) ∨ r.resolved ∈ trail ∨
      ∃ p ∈ l.problems, p.isTooDeep = true) :
    S.Accounts trail ({ imports := [r] } ++ l) := by
  refine ⟨fun q hq => ?_, hl.absent, fun q hq => ?_⟩
  · rcases List.mem_cons.mp hq with rfl | hq
    · exact hmissing
    · exact hl.missing q hq
  · rcases List.mem_cons.mp hq with rfl | hq
    · exact hseen
    · exact hl.seen q hq

theorem Accounts.dropLast {path : Path} {text : String} {l : Ledger}
    (hl : S.Accounts (trail ++ [path]) l) (htext : .ofText path text ∈ l.dependencies) :
    S.Accounts trail l := by
  refine ⟨hl.missing, hl.absent, fun r hr => ?_⟩
  rcases hl.seen r hr with hd | htrail | hdeep
  · exact Or.inl hd
  · rcases List.mem_append.mp htrail with htrail | htrail
    · exact Or.inr (Or.inl htrail)
    · exact Or.inl ⟨_, htext, (List.mem_singleton.mp htrail).symm⟩
  · exact Or.inr (Or.inr hdeep)

theorem kept_accounts (S : Shelf) (o : Options) :
    S.Kept o (fun _ _ _ _ => True) S.Accounts := by
  refine ⟨fun trail => ⟨fun hplain => ?_, .append⟩, fun _ _ _ _ _ => trivial, ?_, ?_⟩
  · refine accounts_of_imports hplain.imports fun p hp => ?_
    obtain ⟨path, text, heq⟩ := hplain.dependencies _ hp
    have hdigest := congrArg Dependency.digest heq
    cases hdigest
  · intro trail referrer d link w out _ hend
    cases hend with
    | unresolved error hcanon =>
        exact .record (accounts_absent rfl rfl (canonicalize_eq_error_iff.mp hcanon).1)
          (fun _ => List.mem_singleton_self _) (Or.inl ⟨_, List.mem_singleton_self _, rfl⟩)
    -- From here on the file is there, so the first condition of `Accounts` (`missing`) asks for
    -- nothing.
    | recursive path hcanon hmem | cycle path hcanon hmem =>
        exact .record (accounts_of_imports rfl fun _ h => absurd h List.not_mem_nil)
          (fun h => absurd (canonicalize_canonical hcanon).2 h) (Or.inr (Or.inl hmem))
    | tooDeep path hcanon hmem =>
        exact .record (accounts_of_imports rfl fun _ h => absurd h List.not_mem_nil)
          (fun h => absurd (canonicalize_canonical hcanon).2 h)
          (Or.inr (Or.inr ⟨_, List.mem_singleton_self _, rfl⟩))
  · intro trail referrer d link path text assembled l _ hcanon _ htext hl
    exact (hl.dropLast htext).record (fun h => absurd (canonicalize_canonical hcanon).2 h)
      (Or.inl ⟨_, htext, rfl⟩)

/-- An extraction accounts for the files of all its records, or reports that a link went too
deep. -/
theorem accounts_run (S : Shelf) (o : Options) (root : Path) :
    S.Accounts [] (Extraction.run (S.setting o) root none).ledger := by
  rcases opens_or_unresolved S o root none with ⟨path, text, w, hopens⟩ | ⟨-, hmissing⟩
  · have haccounts := (kept_accounts S o).ledger_run hopens fun _ _ _ => trivial
    have htext : .ofText path text ∈
        (Extraction.run (S.setting o) root none).ledger.dependencies := by
      rw [hopens.run_eq]
      exact Setting.ofText_mem_assembleText _ _ _ _ _
    have htrail : S.Accounts ([] ++ [path]) (Extraction.run (S.setting o) root none).ledger :=
      haccounts
    exact htrail.dropLast htext
  · rw [Setting.run_unresolved (s := S.setting o) root hmissing]
    exact accounts_absent rfl rfl (canonicalize_eq_error_iff.mp hmissing).1

end Shelf

/-! ## Extractions that are still current -/

/-- Whether a file is gone that an extraction asked for without naming it. -/
def Extraction.LostTarget (e : Extraction) (S : Shelf) : Prop :=
  ∃ r ∈ e.ledger.imports, .absent r.resolved ∉ e.ledger.dependencies ∧ ¬ S.Holds r.resolved

namespace Cache

variable {S : Shelf} {path : Path} {text : String}

theorem isCurrent_iff {d : Dependency} : isCurrent S.loader d = true ↔
    (S.read d.path).toOption.map Digest.ofText = d.digest := beq_iff_eq

theorem isCurrent_ofText (h : isCurrent S.loader (.ofText path text) = true) :
    ∃ text', S.read path = .ok text' ∧ Digest.ofText text' = Digest.ofText text := by
  rw [isCurrent_iff, Dependency.ofText] at h
  cases hread : S.read path with
  | error error => rw [hread] at h; cases h
  | ok text' => rw [hread] at h; exact ⟨text', rfl, Option.some.inj h⟩

theorem isCurrent_absent (h : isCurrent S.loader (.absent path) = true) : ¬ S.Holds path := by
  rintro ⟨text, hread⟩
  rw [isCurrent_iff, Dependency.absent, hread] at h
  cases h

theorem eq_absent_of_isCurrent {d : Dependency} (h : isCurrent S.loader d = true)
    (hmissing : ¬ S.Holds d.path) : d = .absent d.path := by
  obtain ⟨path, digest⟩ := d
  rw [isCurrent_iff] at h
  cases hread : S.read path with
  | ok text => exact absurd ⟨text, hread⟩ hmissing
  | error error =>
      rw [hread] at h
      exact congrArg (Dependency.mk path) h.symm

end Cache

namespace Shelf

variable {S S' : Shelf} {o : Options} {root : Path}

/-- A run that was not called off is the run that nothing could call off. -/
theorem run_eq_of_uncancelled (S : Shelf) {signal : Signal}
    (h : ∀ p ∈ (Extraction.run ⟨o, S.loader, signal⟩ root none).problems, p.kind ≠ .cancelled) :
    Extraction.run ⟨o, S.loader, signal⟩ root none = Extraction.run (S.setting o) root none := by
  let c : Terms := ⟨fun _ => True, fun p => p.kind ≠ .cancelled, fun _ => True⟩
  have hsecure : c.Secure S S :=
    ⟨fun _ h => h, fun _ _ h => h, fun _ _ _ h => h, fun _ _ h => h⟩
  exact (run_eq_of_meets hsecure ⟨fun _ _ => trivial, h, fun _ _ => trivial⟩).symm

/-- An extraction that is current comes out the same, unless a target was lost. -/
theorem run_eq_iff_of_current
    (htexts : ∀ {p text text'}, S.read p = .ok text → S'.read p = .ok text' →
      Digest.ofText text' = Digest.ofText text → text' = text)
    (hcurrent : ∀ d ∈ (Extraction.run (S.setting o) root none).ledger.dependencies,
      Cache.isCurrent S'.loader d = true) :
    Extraction.run (S.setting o) root none = Extraction.run (S'.setting o) root none ↔
      ¬ (Extraction.run (S.setting o) root none).LostTarget S' := by
  have haccounts := accounts_run S o root
  constructor
  · rintro heq ⟨r, hr, hunnamed, hmissing⟩
    rw [heq] at hr hunnamed
    exact hunnamed ((accounts_run S' o root).missing r hr hmissing)
  · intro hlost
    let c : Terms := ⟨fun r => S.Holds r.resolved → S'.Holds r.resolved,
      fun p => p.kind ≠ .cancelled, fun d => Cache.isCurrent S'.loader d = true⟩
    have hsecure : c.Secure S S' := by
      refine ⟨fun _ h => h, fun _ h => h, fun path text hd hread => ?_,
        fun path hd _ => Cache.isCurrent_absent hd⟩
      obtain ⟨text', hread', hdigest⟩ := Cache.isCurrent_ofText hd
      exact htexts hread hread' hdigest ▸ hread'
    -- A target that is gone was not there before either, or else it would be lost.
    have hrecords : ∀ r ∈ (Extraction.run (S.setting o) root none).ledger.imports,
        c.record r := by
      intro r hr hheld
      by_contra hmissing
      have hnamed : .absent r.resolved ∈
          (Extraction.run (S.setting o) root none).ledger.dependencies := by
        by_contra hunnamed
        exact hlost ⟨r, hr, hunnamed, hmissing⟩
      exact haccounts.absent _ hnamed hheld
    exact (run_eq_of_meets hsecure ⟨hrecords, uncancelled_run S o root none, hcurrent⟩).symm

/-- A target can only be lost where a link was refused because of its depth. -/
theorem exists_isTooDeep_of_lostTarget
    (hcurrent : ∀ d ∈ (Extraction.run (S.setting o) root none).ledger.dependencies,
      Cache.isCurrent S'.loader d = true)
    (hlost : (Extraction.run (S.setting o) root none).LostTarget S') :
    ∃ p ∈ (Extraction.run (S.setting o) root none).problems, p.isTooDeep = true := by
  obtain ⟨r, hr, hunnamed, hmissing⟩ := hlost
  rcases (accounts_run S o root).seen r hr with ⟨d, hd, hpath⟩ | htrail | hdeep
  · rw [← hpath] at hmissing hunnamed
    rw [← Cache.eq_absent_of_isCurrent (hcurrent d hd) hmissing] at hunnamed
    exact absurd hd hunnamed
  · cases htrail
  · exact hdeep

theorem run_congr_root {root' path : Path} (h : S.canonicalize (o.placeOf root) = .ok path)
    (h' : S.canonicalize (o.placeOf root') = .ok path) :
    Extraction.run (S.setting o) root none = Extraction.run (S.setting o) root' none := by
  obtain ⟨text, hread⟩ := exists_read_of_canonicalize h
  have hopens : (S.setting o).Opens root none path text _ := .file h hread
  have hopens' : (S.setting o).Opens root' none path text _ := .file h' hread
  rw [hopens.run_eq, hopens'.run_eq]

end Shelf

/-! ## One extraction through a cache -/

namespace Cache

theorem extract_cases (c : Cache) (s : Setting) (now : Nat) (root : Path) :
    (c.extract s now root = c.handOut (.run s root none) ∧
      ∀ path text, s.loader.canonicalize (s.options.placeOf root) = .ok path →
        s.loader.read path = .ok text → c.get? s.loader now (key path text s.options) = none ∧
          ∃ p ∈ (Extraction.run s root none).problems, p.kind = .cancelled) ∨
    ∃ path text, s.loader.canonicalize (s.options.placeOf root) = .ok path ∧
      s.loader.read path = .ok text ∧
      ((∃ kept, c.get? s.loader now (key path text s.options) = some kept ∧
          c.extract s now root = (kept, c)) ∨
        (c.get? s.loader now (key path text s.options) = none ∧
          (∀ p ∈ (Extraction.run s root none).problems, p.kind ≠ .cancelled) ∧
          c.extract s now root =
            c.insert s.loader now (key path text s.options) (.run s root none))) := by
  unfold extract Options.placeOf
  cases hcanon : s.loader.canonicalize (s.options.basePath.join root).normalize with
  | error error =>
      refine Or.inl ⟨by simp only [hcanon, bind, Except.bind], fun path text hpath => ?_⟩
      cases hpath
  | ok path =>
      cases hread : s.loader.read path with
      | error error =>
          refine Or.inl ⟨by simp only [hcanon, bind, Except.bind, hread], ?_⟩
          rintro _ text ⟨⟩ htext
          cases hread.symm.trans htext
      | ok text =>
          simp only [hcanon, bind, Except.bind, hread, pure, Except.pure]
          cases hget : c.get? s.loader now (key path text s.options) with
          | some kept => exact Or.inr ⟨path, text, rfl, hread, Or.inl ⟨kept, hget, rfl⟩⟩
          | none =>
              by_cases hcancelled : (Extraction.run s root none).problems.any
                  fun p => p.kind == .cancelled
              · refine Or.inl ⟨by rw [if_pos hcancelled], ?_⟩
                rintro _ text' ⟨⟩ htext
                cases hread.symm.trans htext
                obtain ⟨p, hp, hkind⟩ := List.any_eq_true.mp hcancelled
                exact ⟨hget, p, hp, eq_of_beq hkind⟩
              · refine Or.inr ⟨path, text, rfl, hread, Or.inr ⟨hget, fun p hp hkind => ?_, ?_⟩⟩
                · exact hcancelled (List.any_eq_true.mpr ⟨p, hp, by rw [hkind]; rfl⟩)
                · rw [if_neg hcancelled]

/-- What was kept before this moment and is not fresh any more gives way. -/
theorem insert_of_get?_eq_none {c : Cache} {loader : Loader} {now : Nat} {key : String}
    (h : c.get? loader now key = none)
    (hbefore : ∀ entry ∈ c.entries, entry.2.inserted < now) (e : Extraction) :
    c.insert loader now key e =
      (⟨c.next, e⟩, ⟨Assoc.insert key ⟨⟨c.next, e⟩, now⟩ c.entries, c.next + 1, c.lifetime⟩) := by
  unfold get? at h
  unfold insert
  cases hfind : Assoc.find? key c.entries with
  | none => rfl
  | some entry =>
      simp only [hfind, bind, Option.bind] at h
      have hold := hbefore _ (Assoc.mem_of_find? hfind)
      have hkeep : ¬ (c.isFresh loader now entry ∨ now ≤ entry.inserted) := by
        rintro (hfresh | hnow)
        · rw [if_pos hfresh] at h
          cases h
        · exact absurd hold (Nat.not_lt.mpr hnow)
      simp only [if_neg hkeep]
      rfl

theorem get?_eq_some {c : Cache} {loader : Loader} {now : Nat} {key : String} {kept : Kept}
    (h : c.get? loader now key = some kept) :
    ∃ entry, (key, entry) ∈ c.entries ∧ entry.kept = kept ∧
      ∀ d ∈ kept.extraction.ledger.dependencies, isCurrent loader d = true := by
  unfold get? at h
  cases hfind : Assoc.find? key c.entries with
  | none => simp [hfind] at h
  | some entry =>
      simp only [hfind, bind, Option.bind] at h
      split at h
      · next hfresh =>
          cases h
          rw [isFresh, Bool.and_eq_true] at hfresh
          exact ⟨entry, Assoc.mem_of_find? hfind, rfl, List.all_eq_true.mp hfresh.2⟩
      · cases h

end Cache

/-! ## Sessions -/

/-- Something that happens to a cache and the shelf that is used with it. -/
inductive Session.Event where
  | change (shelf : Shelf)
  | extract (options : Options) (signal : Signal) (root : Path)
  | clear
  | evict
  | wait (time : Nat)

structure Session where
  cache : Cache
  shelf : Shelf
  clock : Nat

namespace Session

def start (lifetime : Option Nat) (shelf : Shelf) : Session := ⟨.empty lifetime, shelf, 0⟩

/-- What one event does. That an extraction takes time is an assumption. -/
def step (s : Session) : Event → Session
  | .change shelf => { s with shelf }
  | .extract options signal root =>
      let setting : Setting := ⟨options, s.shelf.loader, signal⟩
      { s with cache := (s.cache.extract setting s.clock root).2, clock := s.clock + 1 }
  | .clear => { s with cache := s.cache.clear }
  | .evict => { s with cache := (s.cache.evict s.clock).2 }
  | .wait time => { s with clock := s.clock + time }

def run (s : Session) (events : List Event) : Session := events.foldl step s

def Shows (shelf : Shelf) (events : List Event) (S : Shelf) : Prop :=
  S = shelf ∨ .change S ∈ events

/-- Whether a text with these options can be asked for under a path. -/
def Asks (shelf : Shelf) (events : List Event) (path : Path) (text : String) (o : Options) : Prop :=
  ∃ S root signal, Shows shelf events S ∧ .extract o signal root ∈ events ∧
    S.canonicalize (o.placeOf root) = .ok path ∧ S.read path = .ok text

/-- Whether the digests tell all texts apart that are there at some time, and the keys all
requests. -/
structure NoCollision (shelf : Shelf) (events : List Event) : Prop where
  texts : ∀ {S S' p p' text text'}, Shows shelf events S → Shows shelf events S' →
    S.read p = .ok text → S'.read p' = .ok text' → Digest.ofText text = Digest.ofText text' →
    text = text'
  keys : ∀ {path path' text text' o o'}, Asks shelf events path text o →
    Asks shelf events path' text' o' → Cache.key path text o = Cache.key path' text' o' →
    path = path' ∧ text = text' ∧ o = o'

/-- Whether a cache entry is what an extraction gave that was asked for. -/
def Sound (shelf : Shelf) (events : List Event) (key : String) (e : Extraction) : Prop :=
  ∃ S root signal path text o, Shows shelf events S ∧ .extract o signal root ∈ events ∧
    S.canonicalize (o.placeOf root) = .ok path ∧ S.read path = .ok text ∧
    key = Cache.key path text o ∧ e = Extraction.run (S.setting o) root none

/-- What holds at all times of a session with the given events. -/
structure Inv (shelf : Shelf) (events : List Event) (s : Session) : Prop where
  shows : Shows shelf events s.shelf
  before : ∀ entry ∈ s.cache.entries, entry.2.inserted < s.clock
  sound : ∀ entry ∈ s.cache.entries, Sound shelf events entry.1 entry.2.kept.extraction

/-! ## What every session keeps -/

variable {shelf : Shelf} {events : List Event} {s : Session}

theorem inv_start (lifetime : Option Nat) (shelf : Shelf) (events : List Event) :
    Inv shelf events (start lifetime shelf) :=
  ⟨Or.inl rfl, fun _ h => absurd h List.not_mem_nil, fun _ h => absurd h List.not_mem_nil⟩

theorem Inv.extract (h : Inv shelf events s) {o : Options} {signal : Signal} {root : Path}
    (hmem : .extract o signal root ∈ events) :
    Inv shelf events (s.step (.extract o signal root)) := by
  have hlater : ∀ entry ∈ s.cache.entries, entry.2.inserted < s.clock + 1 :=
    fun entry hentry => Nat.lt_succ_of_lt (h.before entry hentry)
  rcases s.cache.extract_cases ⟨o, s.shelf.loader, signal⟩ s.clock root with
    ⟨hout, -⟩ | ⟨path, text, hcanon, hread, ⟨kept, -, hout⟩ | ⟨hget, hcalm, hout⟩⟩
  · simp only [step, hout]
    exact ⟨h.shows, hlater, h.sound⟩
  · simp only [step, hout]
    exact ⟨h.shows, hlater, h.sound⟩
  · rw [Cache.insert_of_get?_eq_none hget h.before] at hout
    simp only [step, hout]
    refine ⟨h.shows, fun entry hentry => ?_, fun entry hentry => ?_⟩
    · rcases Assoc.mem_insert hentry with ⟨-, hvalue⟩ | hold
      · rw [hvalue]
        exact Nat.lt_succ_self _
      · exact hlater entry hold
    · rcases Assoc.mem_insert hentry with ⟨hkey, hvalue⟩ | hold
      · rw [hkey, hvalue]
        exact ⟨s.shelf, root, signal, path, text, o, h.shows, hmem, hcanon, hread, rfl,
          s.shelf.run_eq_of_uncancelled hcalm⟩
      · exact h.sound entry hold

theorem step_inv (h : Inv shelf events s) {event : Event} (hmem : event ∈ events) :
    Inv shelf events (s.step event) := by
  cases event with
  | change S => exact ⟨Or.inr hmem, h.before, h.sound⟩
  | extract o signal root => exact h.extract hmem
  | clear =>
      exact ⟨h.shows, fun _ h => absurd h List.not_mem_nil, fun _ h => absurd h List.not_mem_nil⟩
  | evict =>
      exact ⟨h.shows, fun entry hentry => h.before entry (List.mem_filter.mp hentry).1,
        fun entry hentry => h.sound entry (List.mem_filter.mp hentry).1⟩
  | wait time =>
      exact ⟨h.shows, fun entry hentry => Nat.lt_add_right time (h.before entry hentry), h.sound⟩

theorem run_inv (h : Inv shelf events s) {past : List Event} (hpast : past ⊆ events) :
    Inv shelf events (s.run past) := by
  induction past generalizing s with
  | nil => exact h
  | cons event rest ih =>
      obtain ⟨hmem, hrest⟩ := List.cons_subset.mp hpast
      exact ih (step_inv h hmem) hrest

/-! ## What a session serves -/

/-- What a cache gives for a root and options when nothing calls it off. -/
def serve (s : Session) (o : Options) (root : Path) : Extraction :=
  (s.cache.extract (s.shelf.setting o) s.clock root).1.extraction

/-- What is served is made anew, or it was kept and all its dependencies are current. -/
theorem Inv.serve_cases (h : Inv shelf events s) (o : Options) (root : Path) :
    s.serve o root = Extraction.run (s.shelf.setting o) root none ∨
    ∃ path text, s.shelf.canonicalize (o.placeOf root) = .ok path ∧
      s.shelf.read path = .ok text ∧
      Sound shelf events (Cache.key path text o) (s.serve o root) ∧
      ∀ d ∈ (s.serve o root).ledger.dependencies, Cache.isCurrent s.shelf.loader d = true := by
  rcases s.cache.extract_cases (s.shelf.setting o) s.clock root with
    ⟨hout, -⟩ | ⟨path, text, hcanon, hread, ⟨kept, hget, hout⟩ | ⟨hget, -, hout⟩⟩
  · exact Or.inl (by rw [serve, hout]; rfl)
  · obtain ⟨entry, hmem, rfl, hcurrent⟩ := Cache.get?_eq_some hget
    rw [serve, hout]
    exact Or.inr ⟨path, text, hcanon, hread, h.sound _ hmem, hcurrent⟩
  · rw [Cache.insert_of_get?_eq_none hget h.before] at hout
    exact Or.inl (by rw [serve, hout])

/-- What a session serves is what an extraction gives from the shelf as it is, unless a file is
gone that the served extraction asked for without naming it; and that can only be where a link
was refused because of its depth. -/
theorem serve_eq_run_iff {lifetime : Option Nat} {shelf : Shelf} {events : List Event}
    {o : Options} {root : Path}
    (hcollision : NoCollision shelf (events ++ [.extract o .never root])) :
    let s := (start lifetime shelf).run events
    (s.serve o root = Extraction.run (s.shelf.setting o) root none ↔
      ¬ (s.serve o root).LostTarget s.shelf) ∧
    ((s.serve o root).LostTarget s.shelf →
      ∃ p ∈ (s.serve o root).problems, p.isTooDeep = true) := by
  intro s
  have hinv : Inv shelf (events ++ [.extract o .never root]) s :=
    run_inv (inv_start lifetime shelf _) (List.subset_append_left _ _)
  rcases hinv.serve_cases o root with hfresh | ⟨path, text, hcanon, hread, hsound, hcurrent⟩
  · have hkept : ¬ (s.serve o root).LostTarget s.shelf := by
      rintro ⟨r, hr, hunnamed, hmissing⟩
      rw [hfresh] at hr hunnamed
      exact hunnamed ((s.shelf.accounts_run o root).missing r hr hmissing)
    exact ⟨⟨fun _ => hkept, fun _ => hfresh⟩, fun hlost => absurd hlost hkept⟩
  · obtain ⟨S, root', signal, path', text', o', hshows, hmem, hcanon', hread', hkey, hrun⟩ := hsound
    -- The key says that the kept extraction was asked for with the same file and options.
    obtain ⟨rfl, rfl, rfl⟩ := hcollision.keys
      ⟨s.shelf, root, .never, hinv.shows, by simp, hcanon, hread⟩
      ⟨S, root', signal, hshows, hmem, hcanon', hread'⟩ hkey
    have hroot : s.shelf.canonicalize (o.placeOf root') = .ok path :=
      Shelf.canonicalize_of_read (Shelf.canonicalize_eq_ok_iff.mp hcanon').2 hread
    rw [hrun] at hcurrent ⊢
    rw [Shelf.run_congr_root hcanon hroot]
    exact ⟨Shelf.run_eq_iff_of_current
        (fun h h' hdigest => hcollision.texts hinv.shows hshows h' h hdigest) hcurrent,
      Shelf.exists_isTooDeep_of_lostTarget hcurrent⟩

/-! ## A shelf that loses a file -/

/-- A root with one link, and the file of the link. -/
def whole : Shelf := ⟨[(⟨"/p/root.tmpl"⟩, "// [A](a)"), (⟨"/p/a.tmpl"⟩, "1")]⟩

def bare : Shelf := ⟨[(⟨"/p/root.tmpl"⟩, "// [A](a)")]⟩

/-- Options under which no link is followed. -/
def shallow : Options := { Options.standard ⟨"/p"⟩ with maxImportDepth := 0 }

def ask : Event := .extract shallow .never ⟨"root.tmpl"⟩

theorem noCollision_whole {events : List Event}
    (h : ∀ event ∈ events, event = ask ∨ event = .change whole ∨ event = .change bare) :
    NoCollision whole events := by
  have hshelf : ∀ {S}, Shows whole events S → S = whole ∨ S = bare := by
    rintro S (hS | hS)
    · exact Or.inl hS
    · rcases h _ hS with hS | hS | hS <;> cases hS
      · exact Or.inl rfl
      · exact Or.inr rfl
  have htext : ∀ {S p text}, Shows whole events S → S.read p = .ok text →
      text = "// [A](a)" ∨ text = "1" := by
    intro S p text hS hread
    have hfiles : ∃ file ∈ S.files, file.2 = text := by
      unfold Shelf.read at hread
      split at hread
      · next found hfind => cases hread; exact ⟨_, Assoc.mem_of_find? hfind, rfl⟩
      · cases hread
    obtain ⟨file, hmem, rfl⟩ := hfiles
    rcases hshelf hS with rfl | rfl
    · simp only [whole, List.mem_cons, List.not_mem_nil, or_false] at hmem
      rcases hmem with rfl | rfl
      · exact Or.inl rfl
      · exact Or.inr rfl
    · cases List.mem_singleton.mp hmem
      exact Or.inl rfl
  have hdiffer : Digest.ofText "// [A](a)" ≠ Digest.ofText "1" := by decide +kernel
  have hasked : ∀ {path text o}, Asks whole events path text o →
      path = ⟨"/p/root.tmpl"⟩ ∧ text = "// [A](a)" ∧ o = shallow := by
    rintro path text o ⟨S, root, signal, hS, hmem, hcanon, hread⟩
    have hpath : (shallow.placeOf ⟨"root.tmpl"⟩).normalize = ⟨"/p/root.tmpl"⟩ := by decide +kernel
    rcases h _ hmem with hask | hask | hask <;> cases hask
    obtain ⟨-, rfl⟩ := Shelf.canonicalize_eq_ok_iff.mp hcanon
    rw [hpath] at hread ⊢
    refine ⟨rfl, ?_, rfl⟩
    have hroot : S.read ⟨"/p/root.tmpl"⟩ = .ok "// [A](a)" := by
      rcases hshelf hS with rfl | rfl <;> decide +kernel
    exact Except.ok.inj (hread.symm.trans hroot)
  refine ⟨fun hS hS' hread hread' hdigest => ?_, fun hask hask' _ => ?_⟩
  · rcases htext hS hread with rfl | rfl <;> rcases htext hS' hread' with rfl | rfl
    · rfl
    · exact absurd hdigest hdiffer
    · exact absurd hdigest.symm hdiffer
    · rfl
  · obtain ⟨rfl, rfl, rfl⟩ := hasked hask
    obtain ⟨rfl, rfl, rfl⟩ := hasked hask'
    exact ⟨rfl, rfl, rfl⟩

/-- A file that was gone for a while is no reason to serve anything else. -/
theorem serve_eq_run_iff_restored :
    let events : List Event := [ask, .change bare, .change whole]
    let s := (start none whole).run events
    NoCollision whole (events ++ [ask]) ∧ ¬ (s.serve shallow ⟨"root.tmpl"⟩).LostTarget s.shelf ∧
      s.serve shallow ⟨"root.tmpl"⟩ =
        Extraction.run (s.shelf.setting shallow) ⟨"root.tmpl"⟩ none := by
  intro events s
  have hcollision : NoCollision whole (events ++ [ask]) := noCollision_whole (by simp [events])
  have hkept : ¬ (s.serve shallow ⟨"root.tmpl"⟩).LostTarget s.shelf := by
    rintro ⟨r, hr, -, hmissing⟩
    have hresolved : ∀ r ∈ (s.serve shallow ⟨"root.tmpl"⟩).ledger.imports,
        r.resolved = ⟨"/p/a.tmpl"⟩ := by decide +kernel
    rw [hresolved r hr] at hmissing
    exact hmissing ⟨"1", by decide +kernel⟩
  exact ⟨hcollision, hkept, (serve_eq_run_iff hcollision).1.mpr hkept⟩

/-- When the link's file is gone, a session still serves that the link goes too deep. -/
theorem serve_ne_run_bare :
    let events : List Event := [ask, .change bare]
    let s := (start none whole).run events
    NoCollision whole (events ++ [ask]) ∧
      s.serve shallow ⟨"root.tmpl"⟩ ≠
        Extraction.run (s.shelf.setting shallow) ⟨"root.tmpl"⟩ none := by
  intro events s
  refine ⟨noCollision_whole (by simp [events]), fun heq => ?_⟩
  have hserved : (s.serve shallow ⟨"root.tmpl"⟩).problems.any Problem.isTooDeep = true := by
    decide +kernel
  have hmade : (Extraction.run (bare.setting shallow) ⟨"root.tmpl"⟩ none).problems.any
      Problem.isTooDeep = false := by decide +kernel
  rw [heq] at hserved
  exact absurd (hserved.symm.trans hmade) (by simp)

end Session

end Stencil
