import Stencil.Proofs.Visits

/-!
# When a run says what another run says

Two runs of one extraction, from different shelves or at different depths, ask the
same questions and get the same answers as long as nothing they come across tells
them apart. What tells them apart is on the ledger of the first one: a file that the
other shelf has otherwise, a file that was on the trail, a link that would have gone
too deep, a cancellation. So the hypothesis is about the first ledger alone. It is
given by terms for its records, problems and dependencies, and the terms say what the
second shelf answers.

The proof goes along the run. Both runs stay without a report of a cancellation, the
second one without a signal, and a ledger that meets the terms meets them in all its
parts, so each step finds what it needs in what it has just written.
-/

namespace Stencil

/-- What is asked of the entries of a ledger. -/
structure Terms where
  record : ImportRecord → Prop
  problem : Problem → Prop
  dependency : Dependency → Prop

/-- Whether all entries of a ledger are as asked. -/
structure Ledger.Meets (l : Ledger) (c : Terms) : Prop where
  records : ∀ r ∈ l.imports, c.record r
  problems : ∀ p ∈ l.problems, c.problem p
  dependencies : ∀ d ∈ l.dependencies, c.dependency d

theorem Ledger.meets_append {a b : Ledger} {c : Terms} (h : (a ++ b).Meets c) :
    a.Meets c ∧ b.Meets c :=
  ⟨⟨fun r hr => h.records r (List.mem_append_left _ hr),
      fun p hp => h.problems p (List.mem_append_left _ hp),
      fun d hd => h.dependencies d (List.mem_append_left _ hd)⟩,
    ⟨fun r hr => h.records r (List.mem_append_right _ hr),
      fun p hp => h.problems p (List.mem_append_right _ hp),
      fun d hd => h.dependencies d (List.mem_append_right _ hd)⟩⟩

/-- Whether an outcome says what another one says, and both may go on alike. -/
structure Outcome.Repeats (a b : Outcome α) : Prop where
  value : b.value = a.value
  ledger : b.ledger = a.ledger
  reported : a.watch.reported = false
  raised : b.watch.raised = false

/-- Whether a run says what another one says where that one's ledger is as asked. -/
def Run.Repeats (c : Terms) (m m' : Run α) : Prop :=
  ∀ w w', w.reported = false → w'.raised = false → (m w).ledger.Meets c →
    (m w).Repeats (m' w')

/-! ## Templates -/

section Templates

variable {c : Terms}

namespace Scope

variable {s : Scope} {f : Directive → Link → Run Assembled}

theorem repeats_learn {d : Directive}
    (hf : ∀ e link, s.linkOf? d = some (e, link) → (s.follow e link).Repeats c (f e link))
    (t : Table) : (s.learn t d).Repeats c ({ s with follow := f }.learn t d) := by
  intro w w' hw hw' hmeets
  rcases learn_cases t d w with ⟨hknows, h⟩ | ⟨e, link, hlink, hnew, h⟩
  · -- What the table knows does not depend on how links are followed.
    have h' : ({ s with follow := f }.learn t d) w' = ⟨t, .empty, w'⟩ := by
      rcases learn_cases (s := { s with follow := f }) t d w' with
        ⟨-, h'⟩ | ⟨e, link, hlink, hnew, -⟩
      · exact h'
      · have hlink' : s.linkOf? d = some (e, link) := hlink
        rw [Knows, hlink'] at hknows
        simp only [hnew] at hknows
        cases hknows
    rw [h, h']
    exact ⟨rfl, rfl, hw, hw'⟩
  · rw [h] at hmeets ⊢
    rw [learn_new (s := { s with follow := f }) hlink hnew]
    obtain ⟨hvalue, hledger, hreported, hraised⟩ := hf e link hlink w w' hw hw' hmeets
    exact ⟨congrArg (fun a => Assoc.insert e.number a t) hvalue, hledger, hreported, hraised⟩

theorem repeats_meet {demand : Demand}
    (hf : ∀ d, demand.directive? = some d → ∀ e link, s.linkOf? d = some (e, link) →
      (s.follow e link).Repeats c (f e link)) (t : Table) :
    (s.meet t demand).Repeats c ({ s with follow := f }.meet t demand) := by
  intro w w' hw hw' hmeets
  cases demand with
  | value d => exact repeats_learn (hf d rfl) t w w' hw hw' hmeets
  | members d =>
      rw [meet_members] at hmeets ⊢
      rw [meet_members]
      obtain ⟨hvalue, hledger, hreported, hraised⟩ :=
        repeats_learn (hf d rfl) t w w' hw hw' (Ledger.meets_append hmeets).1
      refine ⟨hvalue, ?_, hreported, hraised⟩
      simp only [hvalue, hledger]
      rfl
  | fault f' => exact ⟨rfl, rfl, hw, hw'⟩

theorem repeats_meetAll {demands : List Demand}
    (hf : ∀ demand ∈ demands, ∀ d, demand.directive? = some d → ∀ e link,
      s.linkOf? d = some (e, link) → (s.follow e link).Repeats c (f e link)) (t : Table) :
    (s.meetAll t demands).Repeats c ({ s with follow := f }.meetAll t demands) := by
  induction demands generalizing t with
  | nil => exact fun w w' hw hw' _ => ⟨rfl, rfl, hw, hw'⟩
  | cons demand rest ih =>
      intro w w' hw hw' hmeets
      rw [meetAll_cons] at hmeets ⊢
      rw [meetAll_cons]
      obtain ⟨hfirst, hothers⟩ := Ledger.meets_append hmeets
      obtain ⟨hvalue, hledger, hreported, hraised⟩ :=
        repeats_meet (hf demand (by simp)) t w w' hw hw' hfirst
      obtain ⟨hvalue', hledger', hreported', hraised'⟩ :=
        ih (fun other hmem => hf other (List.mem_cons_of_mem _ hmem)) _ _ _ hreported hraised
          hothers
      simp only [hvalue, hledger]
      exact ⟨hvalue', by rw [hledger'], hreported', hraised'⟩

end Scope

namespace Setting

theorem repeats_assembleText (s s' : Setting) (ho : s'.options = s.options) {path : Path}
    {text : String} {follow follow' : Directive → Link → Run Assembled}
    (hf : ∀ d link, LinkIn text d link → (follow d link).Repeats c (follow' d link)) :
    (s.assembleText path text follow).Repeats c (s'.assembleText path text follow') := by
  intro w w' hw hw' hmeets
  cases herror : (Scan.ofText text).error with
  | some error =>
      rw [assembleText_error s herror, assembleText_error s' herror]
      exact ⟨rfl, rfl, hw, hw'⟩
  | none =>
      rw [assembleText_ok s herror] at hmeets ⊢
      rw [assembleText_ok s' herror]
      obtain ⟨options', loader', signal'⟩ := s'
      simp only at ho
      subst ho
      have hlinks : ∀ {demand d e link}, demand ∈ demands (Scan.ofText text).tokens →
          demand.directive? = some d →
          (s.scope path (Scan.ofText text).tokens follow).linkOf? d = some (e, link) →
          (follow e link).Repeats c (follow' e link) := by
        intro demand d e link hmem hd hlink
        obtain ⟨hmem', hmeaning⟩ := s.mem_of_linkOf? (within_demands hmem hd) hlink
        exact hf e link ⟨herror, hmem', hmeaning⟩
      generalize (Scan.ofText text).tokens = tokens at hmeets hlinks ⊢
      have hmet : ((s.scope path tokens follow).meetAll [] (demands tokens)).Repeats c
          ({ s.scope path tokens follow with follow := follow' }.meetAll [] (demands tokens)) :=
        Scope.repeats_meetAll (fun demand hmem d hd e link hlink => hlinks hmem hd hlink) []
      obtain ⟨hvalue, hledger, hreported, hraised⟩ := hmet w w' hw hw'
        (Ledger.meets_append (Ledger.meets_append hmeets).2).2
      refine ⟨?_, ?_, hreported, hraised⟩
      · exact congrArg (s.reading (s.scope path tokens follow) tokens) hvalue
      · exact congrArg (fun l => readLedger path text ++ (counts tokens ++ l)) hledger

end Setting

end Templates

/-! ## Links -/

/-- Whether the terms rule out all that could tell an extraction from one shelf from an extraction
from another shelf that is not called off. -/
structure Terms.Secure (c : Terms) (S S' : Shelf) : Prop where
  uncancelled : ∀ p, c.problem p → p.kind ≠ .cancelled
  held : ∀ r, c.record r → S.Holds r.resolved → S'.Holds r.resolved
  kept : ∀ path text, c.dependency (.ofText path text) → S.read path = .ok text →
    S'.read path = .ok text
  missed : ∀ path, c.dependency (.absent path) → ¬ S.Holds path → ¬ S'.Holds path

/-- Whether a second run with the given depth and trail may stand for a first one: it stands at
the same place, or, where the terms rule out all that depth and trail decide, anywhere with no
less depth and no more trail. -/
inductive Terms.Stands (c : Terms) : Nat → List Path → Nat → List Path → Prop
  | same (depth : Nat) (trail : List Path) : c.Stands depth trail depth trail
  | freer {depth depth' : Nat} {trail trail' : List Path}
      (hrecord : ∀ r, c.record r → r.isRecursive = false)
      (hproblem : ∀ p, c.problem p → p.isTooDeep = false)
      (hdepth : depth ≤ depth') (htrail : trail' ⊆ trail) : c.Stands depth trail depth' trail'

namespace Terms

variable {c : Terms} {depth depth' : Nat} {trail trail' : List Path}

theorem Stands.subset (h : c.Stands depth trail depth' trail') : trail' ⊆ trail := by
  cases h with
  | same => exact fun _ h => h
  | freer hrecord hproblem hdepth htrail => exact htrail

theorem Stands.deeper (h : c.Stands (depth + 1) trail depth' trail') :
    ∃ depth'', depth' = depth'' + 1 ∧
      ∀ path, c.Stands depth (trail ++ [path]) depth'' (trail' ++ [path]) := by
  cases h with
  | same => exact ⟨depth, rfl, fun path => .same _ _⟩
  | freer hrecord hproblem hdepth htrail =>
      refine ⟨depth' - 1, by omega, fun path => .freer hrecord hproblem (by omega) ?_⟩
      exact List.append_subset.mpr ⟨fun _ h => List.mem_append_left _ (htrail h),
        fun _ h => List.mem_append_right _ h⟩

end Terms

namespace Shelf

variable {S S' : Shelf} {c : Terms}

theorem Secure.canonicalize_ok (hc : c.Secure S S') {r : ImportRecord} (hr : c.record r)
    {target : Path} (h : S.canonicalize target = .ok r.resolved) :
    S'.canonicalize target = .ok r.resolved := by
  obtain ⟨htarget, hresolved⟩ := canonicalize_eq_ok_iff.mp h
  have hheld := hc.held r hr (canonicalize_canonical h).2
  rw [hresolved] at hheld
  exact canonicalize_eq_ok_iff.mpr ⟨holds_normalize.mp hheld, hresolved⟩

theorem Secure.canonicalize_error (hc : c.Secure S S') {target : Path} {error : LoadError}
    (hd : c.dependency (.absent target)) (h : S.canonicalize target = .error error) :
    S'.canonicalize target = .error error := by
  obtain ⟨htarget, herror⟩ := canonicalize_eq_error_iff.mp h
  exact canonicalize_eq_error_iff.mpr ⟨hc.missed target hd htarget, herror⟩

variable {o : Options} {signal : Signal}

theorem raised_read (S : Shelf) (path : Path) {w : Watch} (hw : w.raised = false) :
    (Run.read S.loader .never path w).watch.raised = false := by
  simp only [Run.read, hw]
  rfl

/-- Following one link from the second shelf says what it said from the first, if what is behind
the link does. -/
theorem repeats_enter (hc : c.Secure S S') {depth depth' : Nat} {trail trail' : List Path}
    (hstands : c.Stands depth trail depth' trail')
    (hnext : ∀ n n', depth = n + 1 → depth' = n' + 1 → ∀ path e link,
      (Setting.follow ⟨o, S.loader, signal⟩ n (trail ++ [path]) path e link).Repeats c
        ((S'.setting o).follow n' (trail' ++ [path]) path e link))
    {referrer : Path} {d : Directive} {link : Link} {w w' : Watch} {out : Outcome Followed}
    (hw : w.reported = false) (hw' : w'.raised = false)
    (hend : Setting.Ending ⟨o, S.loader, signal⟩ trail referrer d link w
      (Setting.deeper ⟨o, S.loader, signal⟩ depth) out)
    (hrecord : c.record (Setting.record referrer d link out.value)) (hmeets : out.ledger.Meets c) :
    out.Repeats
      ((S'.setting o).enter trail' referrer d link ((S'.setting o).deeper depth') w') := by
  generalize hfollow : Setting.deeper ⟨o, S.loader, signal⟩ depth = follow at hend
  cases hend with
  | unresolved error h =>
      have h' := Secure.canonicalize_error hc (hmeets.dependencies _ (List.mem_singleton_self _)) h
      rw [Setting.enter_unresolved (s := S'.setting o) h']
      exact ⟨rfl, rfl, hw, hw'⟩
  | recursive path h hmem hallow =>
      have h' := Secure.canonicalize_ok hc hrecord h
      cases hstands with
      | same =>
          rw [Setting.enter_recursive (s := S'.setting o) h' hmem hallow]
          exact ⟨rfl, rfl, hw, hw'⟩
      | freer hrec => exact absurd (hrec _ hrecord) (by simp [Setting.record])
  | cycle path h hmem hallow =>
      have h' := Secure.canonicalize_ok hc hrecord h
      cases hstands with
      | same =>
          rw [Setting.enter_cycle (s := S'.setting o) h' hmem hallow]
          exact ⟨rfl, rfl, hw, hw'⟩
      | freer hrec => exact absurd (hrec _ hrecord) (by simp [Setting.record])
  | tooDeep path h hmem =>
      have h' := Secure.canonicalize_ok hc hrecord h
      cases hstands with
      | same =>
          obtain rfl := Setting.deeper_eq_none _ hfollow
          rw [Setting.deeper, Setting.enter_tooDeep (s := S'.setting o) h' hmem]
          exact ⟨rfl, rfl, hw, hw'⟩
      | freer hrec hproblem =>
          exact absurd (hproblem _ (hmeets.problems _ (List.mem_singleton_self _)))
            (by simp [Problem.isTooDeep, Problem.ofLocation])
  | silent path next h hmem hraised hreported => exact absurd (hreported.symm.trans hw) (by simp)
  | cancelled path next h hmem hraised hreported =>
      exact absurd rfl (hc.uncancelled _ (hmeets.problems _ (List.mem_singleton_self _)))
  | unreadable path error next h hmem hraised hread =>
      exact absurd hread (read_ne_error h error)
  | file path text next h hmem hraised hread =>
      have h' := Secure.canonicalize_ok hc hrecord h
      obtain ⟨n, rfl, rfl⟩ := Setting.deeper_eq_some _ hfollow
      obtain ⟨n', rfl, -⟩ := hstands.deeper
      have hread' := hc.kept path text
        (hmeets.dependencies _ (Setting.ofText_mem_assembleText _ _ _ _ _)) hread
      have hmem' : path ∉ trail' := fun h => hmem (hstands.subset h)
      rw [Setting.deeper, Setting.enter_read (s := S'.setting o) h' hmem' hw' hread']
      obtain ⟨hvalue, hledger, hreported, hraised'⟩ :=
        Setting.repeats_assembleText (c := c) ⟨o, S.loader, signal⟩ (S'.setting o) rfl
          (fun e link _ => hnext n n' rfl rfl path e link)
          (Run.read S.loader signal path w).watch (Run.read S'.loader .never path w').watch hw
          (raised_read S' path hw') hmeets
      exact ⟨congrArg (Followed.mk path false) hvalue, hledger, hreported, hraised'⟩

theorem repeats_link (hc : c.Secure S S') {depth depth' : Nat} {trail trail' : List Path}
    (hstands : c.Stands depth trail depth' trail')
    (hnext : ∀ n n', depth = n + 1 → depth' = n' + 1 → ∀ path e link,
      (Setting.follow ⟨o, S.loader, signal⟩ n (trail ++ [path]) path e link).Repeats c
        ((S'.setting o).follow n' (trail' ++ [path]) path e link))
    (referrer : Path) (d : Directive) (link : Link) :
    (Setting.follow ⟨o, S.loader, signal⟩ depth trail referrer d link).Repeats c
      ((S'.setting o).follow depth' trail' referrer d link) := by
  intro w w' hw hw' hmeets
  rw [Setting.follow_apply] at hmeets ⊢
  rw [Setting.follow_apply]
  obtain ⟨hrecord, hrest⟩ := Ledger.meets_append hmeets
  obtain ⟨hvalue, hledger, hreported, hraised⟩ := repeats_enter hc hstands hnext hw hw'
    (Setting.enter_ends _ trail referrer d link _ w)
    (hrecord.records _ (List.mem_singleton_self _)) hrest
  exact ⟨congrArg Followed.assembled hvalue, by simp only [hvalue, hledger], hreported, hraised⟩

/-- Following a link from the second shelf says what it said from the first. -/
theorem repeats_follow (hc : c.Secure S S') {depth depth' : Nat} {trail trail' : List Path}
    (hstands : c.Stands depth trail depth' trail') (referrer : Path) (d : Directive) (link : Link) :
    (Setting.follow ⟨o, S.loader, signal⟩ depth trail referrer d link).Repeats c
      ((S'.setting o).follow depth' trail' referrer d link) := by
  induction depth generalizing depth' trail trail' referrer d link with
  | zero => exact repeats_link hc hstands (fun n n' hn => by cases hn) referrer d link
  | succ depth ih =>
      refine repeats_link hc hstands (fun n n' hn hn' path e next => ?_) referrer d link
      cases hn
      obtain ⟨depth'', hdepth'', hdeeper⟩ := hstands.deeper
      have hsame : n' = depth'' := Nat.succ.inj (hn'.symm.trans hdepth'')
      subst hsame
      exact ih (hdeeper path) path e next

/-! ## Extractions -/

/-- An extraction that met the terms comes out the same from the second shelf. -/
theorem run_eq_of_meets (hc : c.Secure S S') {root : Path}
    (hmeets : (Extraction.run ⟨o, S.loader, signal⟩ root none).ledger.Meets c) :
    Extraction.run (S'.setting o) root none = Extraction.run ⟨o, S.loader, signal⟩ root none := by
  cases hcanon : S.canonicalize (o.placeOf root) with
  | error error =>
      rw [Setting.run_unresolved (s := ⟨o, S.loader, signal⟩) root hcanon] at hmeets ⊢
      have hcanon' := Secure.canonicalize_error hc
        (hmeets.dependencies _ (List.mem_singleton_self _)) hcanon
      rw [Setting.run_unresolved (s := S'.setting o) root hcanon']
      rfl
  | ok path =>
      obtain ⟨text, hread⟩ := exists_read_of_canonicalize hcanon
      have hopens : Setting.Opens ⟨o, S.loader, signal⟩ root none path text _ := .file hcanon hread
      rw [hopens.run_eq] at hmeets ⊢
      have hread' := hc.kept path text
        (hmeets.dependencies _ (Setting.ofText_mem_assembleText _ _ _ _ _)) hread
      obtain ⟨-, hpath⟩ := canonicalize_eq_ok_iff.mp hcanon
      have hcanon' : S'.canonicalize (o.placeOf root) = .ok path :=
        canonicalize_of_read hpath hread'
      have hopens' : Setting.Opens (S'.setting o) root none path text _ := .file hcanon' hread'
      obtain ⟨hvalue, hledger, -, -⟩ :=
        Setting.repeats_assembleText (c := c) ⟨o, S.loader, signal⟩ (S'.setting o) rfl
          (fun e link _ => repeats_follow hc (.same o.maxImportDepth [path]) path e link) _
          (Run.read S'.loader .never path (Run.initialWatch .never)).watch rfl rfl hmeets
      rw [hopens'.run_eq]
      exact congrArg₂ (fun a l => Extraction.mk a.value a.map l) hvalue hledger

end Shelf

end Stencil
