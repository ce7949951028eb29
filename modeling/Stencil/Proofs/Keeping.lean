import Stencil.Proofs.Following

/-!
# What every run keeps

Without a signal a run is never called off, and what it writes can be described link
by link. A property of ledgers that holds of whatever is written about texts alone,
and of one ledger after another, holds of all that an extraction writes as soon as it
holds of what following one link writes. The property may depend on the trail, and so
may the links that can come up at its end.

The induction is on the depth that is left. Inside a file nothing is written but what
its links write and what is written about its text.
-/

namespace Stencil

/-- Whether a ledger says nothing but what a text alone can bring about. -/
structure Ledger.Plain (l : Ledger) : Prop where
  imports : l.imports = []
  problems : ∀ p ∈ l.problems, p.kind = .parseError ∨ p.kind = .invalidSyntax
  dependencies : ∀ d ∈ l.dependencies, ∃ path text, d = .ofText path text

/-- Whether a property holds of plain ledgers and of one ledger after another. -/
structure Ledger.Closed (L : Ledger → Prop) : Prop where
  plain : ∀ {l : Ledger}, l.Plain → L l
  append : ∀ {a b : Ledger}, L a → L b → L (a ++ b)

theorem Ledger.plain_of_problems {problems : List Problem}
    (h : ∀ p ∈ problems, p.kind = .parseError ∨ p.kind = .invalidSyntax) :
    Ledger.Plain { problems } := ⟨rfl, h, fun _ h => absurd h List.not_mem_nil⟩

/-! ## What a template writes

Inside a template nothing is written but what following its links writes and the
problems of the template itself. A property may speak of the watch before and after. -/

def Run.Writes (W : Watch → Watch → Ledger → Prop) (m : Run α) : Prop :=
  ∀ w, W w (m w).watch (m w).ledger

/-- Whether a property holds of a template's own problems and of one stretch of writing after
another. -/
structure Ledger.Chained (W : Watch → Watch → Ledger → Prop) : Prop where
  own : ∀ (w : Watch) {problems : List Problem}, (∀ p ∈ problems, p.kind = .parseError) →
    W w w { problems }
  append : ∀ {w w' w'' a b}, W w w' a → W w' w'' b → W w w'' (a ++ b)

section Writes

variable {W : Watch → Watch → Ledger → Prop}

theorem Ledger.Chained.empty (hW : Ledger.Chained W) (w : Watch) : W w w .empty :=
  hW.own w fun _ h => absurd h List.not_mem_nil

namespace Scope

theorem kind_ownProblems (s : Scope) (t : Table) (demand : Demand) :
    ∀ p ∈ s.ownProblems t demand, p.kind = .parseError := by
  intro p hp
  cases demand with
  | value d => cases hp
  | members d =>
      simp only [ownProblems] at hp
      split at hp
      · cases hp
      · rw [List.mem_singleton.mp hp]; rfl
  | fault f => rw [List.mem_singleton.mp hp]; rfl

theorem writes_learn (hW : Ledger.Chained W) {s : Scope} {d : Directive}
    (hfollow : ∀ e link, s.linkOf? d = some (e, link) → (s.follow e link).Writes W) (t : Table) :
    (s.learn t d).Writes W := by
  intro w
  rcases learn_cases t d w with ⟨-, h⟩ | ⟨e, link, hlink, -, h⟩
  · rw [h]; exact hW.empty w
  · rw [h]; exact hfollow e link hlink w

theorem writes_meet (hW : Ledger.Chained W) {s : Scope} {demand : Demand}
    (hfollow : ∀ d, demand.directive? = some d → ∀ e link, s.linkOf? d = some (e, link) →
      (s.follow e link).Writes W) (t : Table) : (s.meet t demand).Writes W := by
  intro w
  cases demand with
  | value d => exact writes_learn hW (hfollow d rfl) t w
  | members d =>
      rw [meet_members]
      exact hW.append (writes_learn hW (hfollow d rfl) t w) (hW.own _ (s.kind_ownProblems _ _))
  | fault f => exact hW.own w (s.kind_ownProblems t (.fault f))

theorem writes_meetAll (hW : Ledger.Chained W) {s : Scope} {demands : List Demand}
    (hfollow : ∀ demand ∈ demands, ∀ d, demand.directive? = some d → ∀ e link,
      s.linkOf? d = some (e, link) → (s.follow e link).Writes W) (t : Table) :
    (s.meetAll t demands).Writes W := by
  induction demands generalizing t with
  | nil => exact fun w => hW.empty w
  | cons demand rest ih =>
      intro w
      rw [meetAll_cons]
      exact hW.append (writes_meet hW (hfollow demand (by simp)) t w)
        (ih (fun other hmem => hfollow other (List.mem_cons_of_mem _ hmem)) _ _)

end Scope

end Writes

/-- Whether nothing has called a run off so far. -/
structure Watch.Calm (w : Watch) : Prop where
  raised : w.raised = false
  reported : w.reported = false

/-- Whether a run that has not been called off before is not called off, and what it writes has
a property. -/
def Run.Keeps (L : Ledger → Prop) (m : Run α) : Prop :=
  ∀ w, w.Calm → (m w).watch.Calm ∧ L (m w).ledger

section Keeps

variable {L : Ledger → Prop}

theorem Ledger.Closed.chained (hL : Ledger.Closed L) :
    Ledger.Chained fun w w' l => w.Calm → w'.Calm ∧ L l where
  own _ _ h hw := ⟨hw, hL.plain (plain_of_problems fun p hp => Or.inl (h p hp))⟩
  append ha hb hw := ⟨(hb (ha hw).1).1, hL.append (ha hw).2 (hb (ha hw).1).2⟩

theorem Scope.keeps_meetAll (hL : Ledger.Closed L) {s : Scope} {demands : List Demand}
    (hfollow : ∀ demand ∈ demands, ∀ d, demand.directive? = some d → ∀ e link,
      s.linkOf? d = some (e, link) → (s.follow e link).Keeps L) (t : Table) :
    (s.meetAll t demands).Keeps L :=
  writes_meetAll (W := fun w w' l => w.Calm → w'.Calm ∧ L l) hL.chained hfollow t

namespace Setting

variable (s : Setting)

/-- Whether a link is a link of a text that can be scanned. -/
def LinkIn (text : String) (d : Directive) (link : Link) : Prop :=
  (Scan.ofText text).error = none ∧ d ∈ Directive.ofTokens 0 (Scan.ofText text).tokens ∧
    d.meaning = .link link

theorem plain_readLedger (path : Path) (text : String) : (readLedger path text).Plain :=
  ⟨rfl, fun _ h => absurd h List.not_mem_nil, fun _ hd => ⟨path, text, List.mem_singleton.mp hd⟩⟩

theorem writes_meetAll {W : Watch → Watch → Ledger → Prop} (hW : Ledger.Chained W) (path : Path)
    {text : String} {follow : Directive → Link → Run Assembled}
    (herror : (Scan.ofText text).error = none)
    (hfollow : ∀ d link, LinkIn text d link → (follow d link).Writes W) :
    ((s.scope path (Scan.ofText text).tokens follow).meetAll []
      (demands (Scan.ofText text).tokens)).Writes W := by
  refine Scope.writes_meetAll hW (fun demand hmem d hd e link hlink => ?_) []
  obtain ⟨hmem', hmeaning⟩ := s.mem_of_linkOf? (within_demands hmem hd) hlink
  exact hfollow e link ⟨herror, hmem', hmeaning⟩

theorem keeps_assembleText (hL : Ledger.Closed L) {path : Path} {text : String}
    {follow : Directive → Link → Run Assembled}
    (hfollow : ∀ d link, LinkIn text d link → (follow d link).Keeps L) :
    (s.assembleText path text follow).Keeps L := by
  intro w hw
  cases herror : (Scan.ofText text).error with
  | some error =>
      rw [assembleText_error s herror]
      refine ⟨hw, hL.append (hL.plain (plain_readLedger path text))
        (hL.plain (Ledger.plain_of_problems fun p hp => ?_))⟩
      rw [List.mem_singleton.mp hp]
      exact Or.inr rfl
  | none =>
      rw [assembleText_ok s herror]
      obtain ⟨hwatch, hledger⟩ := s.writes_meetAll hL.chained path herror hfollow w hw
      have hcounts : (counts (Scan.ofText text).tokens).Plain :=
        ⟨rfl, fun _ h => absurd h List.not_mem_nil, fun _ h => absurd h List.not_mem_nil⟩
      exact ⟨hwatch, hL.append (hL.plain (plain_readLedger path text))
        (hL.append (hL.plain hcounts) hledger)⟩

/-- Whatever becomes of a text, it is on the ledger that it was read. -/
theorem ofText_mem_assembleText (path : Path) (text : String)
    (follow : Directive → Link → Run Assembled) (w : Watch) :
    .ofText path text ∈ (s.assembleText path text follow w).ledger.dependencies := by
  cases herror : (Scan.ofText text).error with
  | some error =>
      rw [assembleText_error s herror]
      exact List.mem_append_left _ (by simp [readLedger])
  | none =>
      rw [assembleText_ok s herror]
      exact List.mem_append_left _ (by simp [readLedger])

end Setting

end Keeps

/-- The setting of an extraction from a shelf that nothing calls off. -/
def Shelf.setting (S : Shelf) (o : Options) : Setting := ⟨o, S.loader, .never⟩

theorem Shelf.calm_read (S : Shelf) (o : Options) (path : Path) {w : Watch} (hw : w.Calm) :
    (Run.read (S.setting o).loader (S.setting o).signal path w).watch.Calm := by
  refine ⟨?_, hw.reported⟩
  simp only [Run.read, hw.raised]
  rfl

/-- A property of what is written at the end of a trail, and what holds of the links there. -/
structure Shelf.Kept (S : Shelf) (o : Options) (T : List Path → Path → Directive → Link → Prop)
    (L : List Path → Ledger → Prop) : Prop where
  closed : ∀ trail, Ledger.Closed (L trail)
  /-- What holds of the links at the end of a trail holds of those one file further. -/
  inside : ∀ {trail referrer d link path text e next}, T trail referrer d link →
    S.canonicalize ((S.setting o).targetOf referrer link) = .ok path → path ∉ trail →
    S.read path = .ok text → Setting.LinkIn text e next → T (trail ++ [path]) path e next
  /-- The property holds of what is written about a link that leads no further. -/
  refused : ∀ {trail referrer d link w} {out : Outcome Followed}, T trail referrer d link →
    (S.setting o).Ending trail referrer d link w none out →
    L trail ({ imports := [Setting.record referrer d link out.value] } ++ out.ledger)
  /-- The property holds of the record of a file in front of what the file wrote. -/
  file : ∀ {trail referrer d link path text assembled} {l : Ledger}, T trail referrer d link →
    S.canonicalize ((S.setting o).targetOf referrer link) = .ok path → path ∉ trail →
    .ofText path text ∈ l.dependencies → L (trail ++ [path]) l →
    L trail ({ imports := [Setting.record referrer d link ⟨path, false, assembled⟩] } ++ l)

namespace Shelf

variable {S : Shelf} {o : Options} {T : List Path → Path → Directive → Link → Prop}
  {L : List Path → Ledger → Prop}

theorem Kept.keeps_follow (h : S.Kept o T L) (depth : Nat) {trail : List Path}
    {referrer : Path} {d : Directive} {link : Link} (hT : T trail referrer d link) :
    ((S.setting o).follow depth trail referrer d link).Keeps (L trail) := by
  induction depth generalizing trail referrer d link with
  | zero =>
      intro w hw
      rw [Setting.follow_apply]
      have hend := (S.setting o).enter_ends trail referrer d link none w
      refine ⟨?_, h.refused hT hend⟩
      simp only [Setting.deeper]
      generalize (S.setting o).enter trail referrer d link none w = out at hend
      cases hend <;> exact hw
  | succ depth ih =>
      intro w hw
      rw [Setting.follow_apply]
      simp only [Setting.deeper]
      have hend :=
        (S.setting o).enter_ends trail referrer d link (some ((S.setting o).follow depth)) w
      generalize (S.setting o).enter trail referrer d link _ w = out at hend
      cases hend with
      | unresolved error hcanon => exact ⟨hw, h.refused hT (w := w) (.unresolved error hcanon)⟩
      | recursive path hcanon hmem hallow =>
          exact ⟨hw, h.refused hT (w := w) (.recursive path hcanon hmem hallow)⟩
      | cycle path hcanon hmem hallow =>
          exact ⟨hw, h.refused hT (w := w) (.cycle path hcanon hmem hallow)⟩
      | silent path next hcanon hmem hraised hreported =>
          exact absurd (hraised.symm.trans hw.raised) (by simp)
      | cancelled path next hcanon hmem hraised hreported =>
          exact absurd (hraised.symm.trans hw.raised) (by simp)
      | unreadable path error next hcanon hmem hraised hread =>
          exact absurd hread (read_ne_error hcanon error)
      | file path text next hcanon hmem hraised hread =>
          have hinner : ((S.setting o).assembleText path text
              ((S.setting o).follow depth (trail ++ [path]) path)).Keeps (L (trail ++ [path])) :=
            Setting.keeps_assembleText _ (h.closed _) fun e next hlink =>
              ih (h.inside hT hcanon hmem hread hlink)
          obtain ⟨hwatch, hledger⟩ := hinner _ (calm_read S o path hw)
          exact ⟨hwatch, h.file hT hcanon hmem (Setting.ofText_mem_assembleText _ _ _ _ _) hledger⟩

end Shelf

end Stencil
