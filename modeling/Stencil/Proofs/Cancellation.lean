import Stencil.Proofs.WrittenSoFar

/-!
# A signal cuts an extraction at one point

A signal is not noticed before a link's file would be read. Up to there an extraction is side by
side with one that nothing calls off: both have done the same, and what the first has written the
second has written too, and will have in front of everything else it writes.

At that link it is reported that the run has been called off, and from then on no link leads to a
file any more. What is written after that, by this file and by those that wait below it, is
barren: links that gave nothing, and problems that are not that the run has been called off again.
-/

namespace Stencil

/-- That a run has been called off, said of the link of a record. -/
def ImportRecord.cancelled (r : ImportRecord) : Problem :=
  .ofLocation (.cancelled r.written) r.file r.range.first

/-- What is written of the link at which it is noticed that the run has been called off. -/
def ImportRecord.cut (r : ImportRecord) : Ledger := { imports := [r], problems := [r.cancelled] }

/-- Whether no link gave anything, no file was read and it is not reported that the run has been
called off. -/
structure Ledger.Barren (l : Ledger) : Prop where
  imports : ∀ r ∈ l.imports, r.value = .null
  problems : ∀ p ∈ l.problems, p.kind ≠ .cancelled
  dependencies : ∀ d ∈ l.dependencies, d.digest = none

namespace Ledger

theorem Barren.append {a b : Ledger} (ha : a.Barren) (hb : b.Barren) : (a ++ b).Barren where
  imports r hr := (List.mem_append.mp hr).elim (ha.imports r) (hb.imports r)
  problems p hp := (List.mem_append.mp hp).elim (ha.problems p) (hb.problems p)
  dependencies d hd := (List.mem_append.mp hd).elim (ha.dependencies d) (hb.dependencies d)

theorem barren_problems {problems : List Problem} (h : ∀ p ∈ problems, p.kind ≠ .cancelled) :
    Ledger.Barren { problems } :=
  ⟨fun _ h => absurd h List.not_mem_nil, h, fun _ h => absurd h List.not_mem_nil⟩

theorem barren_empty : empty.Barren := barren_problems fun _ h => absurd h List.not_mem_nil

theorem barren_absent {path : Path} {p : Problem} (h : p.kind ≠ .cancelled) :
    Ledger.Barren { dependencies := [.absent path], problems := [p] } where
  imports _ h := absurd h List.not_mem_nil
  problems q hq := by
    rw [List.mem_singleton.mp hq]
    exact h
  dependencies d hd := by
    rw [List.mem_singleton.mp hd]
    rfl

theorem barren_record {r : ImportRecord} (h : r.value = .null) :
    Ledger.Barren { imports := [r] } where
  imports q hq := by
    rw [List.mem_singleton.mp hq]
    exact h
  problems _ h := absurd h List.not_mem_nil
  dependencies _ h := absurd h List.not_mem_nil

end Ledger

/-- Whether a signal has not been reported under a watch, and has not come under another. -/
structure Watch.Before (w w' : Watch) : Prop where
  unreported : w.reported = false
  calm : w'.Calm

namespace State

/-- Whether a machine goes on behind a cut, with nothing but what is barren: on top is what had been
written before, but for values, then the cut. -/
structure Silenced (front : Ledger) (r : ImportRecord) (w : Watch) (x : State) : Prop where
  watch : x.watch = w
  split : ∃ kept back, x.onTop = kept ++ (r.cut ++ back) ∧
    (x.below ++ kept).withoutValues = front.withoutValues ∧ back.Barren

end State

namespace Setting

variable {s : Setting} {stack : ActiveStack} {referrer : Path} {d : Directive} {link : Link}
  {w w' : Watch} {x x' : State} {r : ImportRecord} {front : Ledger}

/-- A setting without the signal. -/
def undisturbed (s : Setting) : Setting := { s with signal := .never }

/-! ## Up to the cut -/

/-- Whether a step is the one at which it is noticed that the run has been called off. -/
structure CutAt (s : Setting) (x : State) (r : ImportRecord) : Prop where
  raised : x.watch.raised = true
  value : r.value = .null
  below : (s.step x).below = x.below
  onTop : (s.step x).onTop = x.onTop ++ r.cut
  watch : (s.step x).watch = { x.watch with reported := true }

theorem CutAt.written (h : s.CutAt x r) : (s.step x).written = x.written ++ r.cut := by
  rw [State.written, State.written, h.below, h.onTop, Ledger.append_assoc]

theorem before_read (s : Setting) (path : Path) (h : w.Before w') :
    (Run.read s.loader s.signal path w).watch.Before
      (Run.read s.loader .never path w').watch := by
  refine ⟨h.unreported, ?_, h.calm.reported⟩
  show (w'.raised || false) = false
  rw [h.calm.raised]
  rfl

/-- Without the signal a call has the same reply, or it is where the signal is noticed. -/
theorem alike_call_or_cutAt (hcalls : s.Calls x stack referrer d link w) (h : w.Before w') :
    (Comparison.same Watch.Before).Alike (s.call stack referrer d link w)
      (s.undisturbed.call stack referrer d link w') ∨ ∃ r, s.CutAt x r := by
  have hreplies := s.call_replies stack referrer d link w
  generalize hout : s.call stack referrer d link w = out at hreplies
  -- The watch is only asked where a file would be read.
  have hunasked {value : Reply} {l : Ledger}
      (hreplies : s.undisturbed.Replies stack referrer d link w' ⟨value, l, w'⟩) :
      (Comparison.same Watch.Before).Alike ⟨value, l, w⟩
        (s.undisturbed.call stack referrer d link w') := by
    rw [hreplies.call_eq]
    exact ⟨rfl, Comparison.ledger_same.mpr rfl, h⟩
  cases hreplies with
  | unresolved error hcanon => exact Or.inl (hunasked (.unresolved error hcanon))
  | recursive path hcanon hmem hallow =>
      exact Or.inl (hunasked (.recursive path hcanon hmem hallow))
  | cycle path hcanon hmem hallow => exact Or.inl (hunasked (.cycle path hcanon hmem hallow))
  | tooDeep path hcanon hmem hdeep => exact Or.inl (hunasked (.tooDeep path hcanon hmem hdeep))
  | silent path hcanon hmem hdeep hraised hreported =>
      rw [h.unreported] at hreported
      cases hreported
  | cancelled path hcanon hmem hdeep hraised hreported =>
      obtain ⟨f, callers, rfl, rfl, hwanted⟩ := hcalls
      refine Or.inr ⟨record f.path d link ⟨path, false, .nothing⟩, hraised, rfl, ?_, ?_, ?_⟩
      all_goals
        rw [step_call hwanted, hout]
        rfl
  | unreadable path error hcanon hmem hdeep hraised hread =>
      rw [Replies.call_eq (s := s.undisturbed)
        (.unreadable path error hcanon hmem hdeep h.calm.raised hread)]
      exact Or.inl ⟨rfl, Comparison.ledger_same.mpr rfl, before_read s path h⟩
  | file path text hcanon hmem hdeep hraised hread =>
      rw [Replies.call_eq (s := s.undisturbed)
        (.file path text hcanon hmem hdeep h.calm.raised hread)]
      have hopened := Comparison.alike_openText Comparison.hides_nothing path text
        (before_read s path h)
      refine Or.inl ⟨?_, hopened.ledger, hopened.watch⟩
      exact congrArg (Reply.ofOpened path) hopened.value

/-- At any time, an extraction is side by side with one that nothing calls off, or it has been so
until it noticed the signal. -/
theorem states_or_cutAt (s : Setting) (root : Path) (text? : Option String) (n : Nat) :
    let state (n : Nat) := s.step^[n] (s.start root text?)
    let state' (n : Nat) := s.undisturbed.step^[n] (s.undisturbed.start root text?)
    (Comparison.same Watch.Before).States (state n) (state' n) ∨
      ∃ k < n, (∃ r, s.CutAt (state k) r) ∧
        (Comparison.same Watch.Before).States (state k) (state' k) := by
  intro state state'
  have hkept : (Comparison.same Watch.Before).Kept s s.undisturbed :=
    Comparison.kept_dropping Comparison.hides_nothing rfl rfl
  induction n with
  | zero =>
      have hstart : (Run.initialWatch s.signal).Before (Run.initialWatch .never) :=
        ⟨rfl, rfl, rfl⟩
      have hopen : (Comparison.same Watch.Before).Alike
          (s.openRoot root text? (Run.initialWatch s.signal))
          (s.undisturbed.openRoot root text? (Run.initialWatch .never)) := by
        refine Comparison.alike_openRoot Comparison.hides_nothing ?_ ?_ hstart ?_
        · rfl
        · rfl
        · exact fun path => before_read s path hstart
      exact Or.inl (Comparison.states_start hkept hopen)
  | succ n ih =>
      rcases ih with h | ⟨k, hk, hcut⟩
      · by_cases hcut : ∃ r, s.CutAt (state n) r
        · exact Or.inr ⟨n, Nat.lt_succ_self n, hcut, h⟩
        · refine Or.inl ?_
          show (Comparison.same Watch.Before).States (s.step^[n + 1] _)
            (s.undisturbed.step^[n + 1] _)
          rw [Function.iterate_succ_apply', Function.iterate_succ_apply']
          exact h.step hkept fun stack referrer d link w w' hcalls _ hw =>
            (alike_call_or_cutAt hcalls hw).resolve_right hcut
      · exact Or.inr ⟨k, Nat.lt_succ_of_lt hk, hcut⟩

/-! ## Behind the cut -/

/-- A call in a run that has reported to be called off comes back with nothing. -/
theorem call_silenced (hraised : w.raised = true) (hreported : w.reported = true)
    (stack : ActiveStack) (referrer : Path) (d : Directive) (link : Link) :
    ∃ f l, s.call stack referrer d link w = ⟨.back f, l, w⟩ ∧ f.assembled = .nothing ∧
      l.Barren := by
  have hreplies := s.call_replies stack referrer d link w
  generalize s.call stack referrer d link w = out at hreplies ⊢
  have hsingle {p : Problem} (h : p.kind ≠ .cancelled) : Ledger.Barren { problems := [p] } :=
    Ledger.barren_problems fun q hq => by rwa [List.mem_singleton.mp hq]
  cases hreplies with
  | unresolved error hcanon =>
      exact ⟨_, _, rfl, rfl, Ledger.barren_absent Problem.Kind.noConfusion⟩
  | recursive path hcanon hmem hallow => exact ⟨_, _, rfl, rfl, Ledger.barren_empty⟩
  | cycle path hcanon hmem hallow => exact ⟨_, _, rfl, rfl, hsingle Problem.Kind.noConfusion⟩
  | tooDeep path hcanon hmem hdeep => exact ⟨_, _, rfl, rfl, hsingle Problem.Kind.noConfusion⟩
  | silent path hcanon hmem hdeep _ _ => exact ⟨_, _, rfl, rfl, Ledger.barren_empty⟩
  | cancelled path hcanon hmem hdeep _ hunreported =>
      rw [hreported] at hunreported
      cases hunreported
  | unreadable path error hcanon hmem hdeep hlowered hread =>
      rw [hraised] at hlowered
      cases hlowered
  | file path text hcanon hmem hdeep hlowered hread =>
      rw [hraised] at hlowered
      cases hlowered

theorem silenced_running {f : Frame} {callers : List Waiting} (kept : Ledger) {back : Ledger}
    (htop : f.ledger = kept ++ (r.cut ++ back))
    (hfront : (Waiting.writtenBelow f.path callers ++ kept).withoutValues = front.withoutValues)
    (hback : back.Barren) : (State.running stack f callers w).Silenced front r w :=
  ⟨rfl, kept, back, htop, hfront, hback⟩

theorem step_silenced (hraised : w.raised = true) (hreported : w.reported = true)
    (h : x.Silenced front r w) : (s.step x).Silenced front r w := by
  obtain ⟨hwatch, kept, back, htop, hfront, hback⟩ := h
  match x with
  | .ended stack out => exact ⟨hwatch, kept, back, htop, hfront, hback⟩
  | .running stack f callers w₀ =>
      obtain rfl : w₀ = w := hwatch
      have hledger : f.ledger = kept ++ (r.cut ++ back) := htop
      have hmore {l : Ledger} (hl : l.Barren) :
          f.ledger ++ l = kept ++ (r.cut ++ (back ++ l)) ∧ (back ++ l).Barren :=
        ⟨by rw [hledger]; simp only [Ledger.append_assoc], hback.append hl⟩
      cases hwanted : f.wanted? s with
      | some found =>
          obtain ⟨d, link⟩ := found
          obtain ⟨g, l, hcall, hnothing, hl⟩ :=
            call_silenced (s := s) hraised hreported stack f.path d link
          rw [step_call hwanted, hcall]
          have hvalue : (record f.path d link g).value = .null := by
            show g.assembled.value = _
            rw [hnothing]
            rfl
          obtain ⟨htop', hback'⟩ := hmore ((Ledger.barren_record hvalue).append hl)
          exact silenced_running kept htop' hfront hback'
      | none =>
          cases hpending : f.pending with
          | nil =>
              cases callers with
              | nil =>
                  rw [step_end hpending]
                  exact ⟨rfl, kept, back, htop, hfront, hback⟩
              | cons c rest =>
                  -- The caller's record gets its value now; it stands in front of the cut.
                  rw [step_return hpending]
                  refine silenced_running (c.frame.ledger ++
                    ({ imports := [record c.frame.path c.directive c.link
                      ⟨f.path, false, f.assembled s⟩] } ++ kept)) ?_ ?_ hback
                  · rw [Waiting.written_resume, hledger]
                    simp only [Ledger.append_assoc]
                  · rw [← hfront]
                    simp only [State.below, Waiting.writtenBelow, Waiting.written,
                      Ledger.withoutValues_append, Ledger.append_assoc]
                    rfl
          | cons demand rest =>
              rw [Frame.wanted?, hpending] at hwanted
              rw [step_met hpending hwanted]
              have hown : Ledger.Barren { problems := (f.scope s).ownProblems f.table demand } :=
                Ledger.barren_problems fun p hp => by
                  rw [Scope.kind_ownProblems _ _ _ p hp]
                  exact Problem.Kind.noConfusion
              obtain ⟨htop', hback'⟩ := hmore hown
              exact silenced_running kept htop' hfront hback'

/-- From the cut on the machine is silenced. -/
theorem run_silenced (h : s.CutAt x r) (n : Nat) :
    (s.step^[n + 1] x).Silenced x.written r { x.watch with reported := true } := by
  induction n with
  | zero =>
      refine ⟨h.watch, x.onTop, .empty, ?_, ?_, Ledger.barren_empty⟩
      · rw [Ledger.append_empty]
        exact h.onTop
      · show ((s.step x).below ++ x.onTop).withoutValues = x.written.withoutValues
        rw [h.below]
        rfl
  | succ n ih =>
      rw [Function.iterate_succ_apply']
      exact step_silenced h.raised rfl ih

/-- Whether an extraction is cut at a step, for a record: what it writes is what had been written by
then, but for values, then the cut, and then nothing but what is barren; and what had been written
is how the extraction starts that nothing calls off. -/
structure CutFor (s : Setting) (root : Path) (text? : Option String) (n : Nat) (r : ImportRecord)
    (kept back : Ledger) : Prop where
  cut : s.CutAt (s.step^[n] (s.start root text?)) r
  ledger : (Extraction.run s root text?).ledger = kept ++ (r.cut ++ back)
  kept : kept.withoutValues = (s.step^[n] (s.start root text?)).written.withoutValues
  barren : back.Barren
  starts : (s.step^[n] (s.start root text?)).written.Starts
    (Extraction.run s.undisturbed root text?).ledger

/-- An extraction is the one that nothing calls off, or it is cut at some step. -/
theorem run_eq_or_cut (s : Setting) (root : Path) (text? : Option String) :
    Extraction.run s root text? = Extraction.run s.undisturbed root text? ∨
      ∃ n r kept back, s.CutFor root text? n r kept back := by
  have hkept : (Comparison.same Watch.Before).Kept s s.undisturbed :=
    Comparison.kept_dropping Comparison.hides_nothing rfl rfl
  obtain ⟨m, hm⟩ := s.exists_iterate_step_eq root text?
  rcases s.states_or_cutAt root text? m with hstates | ⟨n, hn, ⟨r, hcut⟩, hstates⟩
  · obtain ⟨hvalue, hledger⟩ := Comparison.run_alike_of_ended hm hstates
    exact Or.inl (Extraction.ext_assembled hvalue (Comparison.ledger_same.mp hledger)).symm
  · obtain ⟨j, rfl⟩ : ∃ j, m = j + 1 + n := ⟨m - n - 1, by omega⟩
    rw [Function.iterate_add_apply] at hm
    have hsilenced := run_silenced hcut j
    rw [hm] at hsilenced
    obtain ⟨-, kept, back, htop, hfront, hback⟩ := hsilenced
    refine Or.inr ⟨n, r, kept, back, hcut, htop, ?_, hback, ?_⟩
    · rw [← hfront]
      show _ = (Ledger.empty ++ kept).withoutValues
      rw [Ledger.empty_append]
    · have hwritten := Comparison.ledger_same.mp (hstates.written hkept)
      rw [← hwritten]
      exact s.undisturbed.starts_run root text? n

namespace CutFor

variable {root : Path} {text? : Option String} {n : Nat} {kept back : Ledger}

theorem problems (h : s.CutFor root text? n r kept back) :
    (Extraction.run s root text?).problems =
      (s.step^[n] (s.start root text?)).written.problems ++ r.cancelled :: back.problems := by
  have hkept := congrArg Ledger.problems h.kept
  rw [← show kept.problems = (s.step^[n] (s.start root text?)).written.problems from hkept]
  exact congrArg Ledger.problems h.ledger

theorem imports (h : s.CutFor root text? n r kept back) :
    (Extraction.run s root text?).ledger.imports = kept.imports ++ r :: back.imports ∧
      kept.imports.length = (s.step^[n] (s.start root text?)).written.imports.length ∧
      ∀ q ∈ r :: back.imports, q.value = .null :=
  ⟨congrArg Ledger.imports h.ledger, Ledger.length_imports_of_withoutValues h.kept,
    List.forall_mem_cons.mpr ⟨h.cut.value, h.barren.imports⟩⟩

/-- Behind a cut no file is read. -/
theorem reads (h : s.CutFor root text? n r kept back) {m : Nat} (hm : n < m) :
    (s.step^[m] (s.start root text?)).watch.reads =
      (s.step^[n] (s.start root text?)).watch.reads := by
  obtain ⟨j, rfl⟩ : ∃ j, m = j + 1 + n := ⟨m - n - 1, by omega⟩
  rw [Function.iterate_add_apply, (run_silenced h.cut j).watch]

theorem hashed (h : s.CutFor root text? n r kept back) :
    (Extraction.run s root text?).ledger.dependencies.filter (fun d => d.digest.isSome) <+:
      (Extraction.run s.undisturbed root text?).ledger.dependencies.filter
        (fun d => d.digest.isSome) := by
  have hkept := congrArg Ledger.dependencies h.kept
  have hback : back.dependencies.filter (fun d => d.digest.isSome) = [] :=
    List.filter_eq_nil_iff.mpr fun d hd => by
      rw [h.barren.dependencies d hd]
      exact Bool.false_ne_true
  have hdependencies : (Extraction.run s root text?).ledger.dependencies =
      kept.dependencies ++ back.dependencies := congrArg Ledger.dependencies h.ledger
  rw [hdependencies, List.filter_append, hback, List.append_nil,
    show kept.dependencies = (s.step^[n] (s.start root text?)).written.dependencies from hkept]
  exact h.starts.dependencies.filter _

end CutFor

end Setting

/-- A signal cuts an extraction at one point. That the run has been called off is reported once at
most. Where it is not, the extraction is the one that nothing calls off. Where it is, at some step
of the machine that problem is written together with the record of the link it is about; what is
reported before is the beginning of what the undisturbed extraction reports, no file is read after
it, and neither that record nor one that is written later has a value in the end. In any case the
files that have been read are the first ones that the undisturbed extraction reads. -/
theorem Extraction.cut_once (S : Shelf) (o : Options) (signal : Signal) (root : Path)
    (text? : Option String) :
    let s : Setting := ⟨o, S.loader, signal⟩
    let state (n : Nat) := s.step^[n] (s.start root text?)
    let e := run s root text?
    let whole := run (S.setting o) root text?
    (∃ n, state n = .ended .empty (s.extractRoot root text? (Run.initialWatch signal))) ∧
    e.problems.countP (fun p => p.kind = .cancelled) ≤ 1 ∧
    ((∀ p ∈ e.problems, p.kind ≠ .cancelled) → e = whole) ∧
    e.ledger.dependencies.filter (fun d => d.digest.isSome) <+:
      whole.ledger.dependencies.filter (fun d => d.digest.isSome) ∧
    ∀ before p after, e.problems = before ++ p :: after → p.kind = .cancelled →
      before <+: whole.problems ∧
      ∃ n r records later,
        (state n).written.problems = before ∧
        (state (n + 1)).written = (state n).written ++ { imports := [r], problems := [p] } ∧
        p = r.cancelled ∧
        (∀ m > n, (state m).watch.reads = (state n).watch.reads) ∧
        e.ledger.imports = records ++ r :: later ∧
        records.length = (state n).written.imports.length ∧
        ∀ q ∈ r :: later, q.value = .null := by
  intro s state e whole
  have hwhole : ∀ p ∈ whole.problems, p.kind ≠ .cancelled := S.uncancelled_run o root text?
  refine ⟨s.exists_iterate_step_eq root text?, ?_⟩
  have hzero {problems : List Problem} (h : ∀ p ∈ problems, p.kind ≠ .cancelled) :
      problems.countP (fun p => p.kind = .cancelled) = 0 :=
    List.countP_eq_zero.mpr fun p hp => by simpa using h p hp
  rcases s.run_eq_or_cut root text? with heq | ⟨n, r, kept, back, hcut⟩
  · have heq : e = whole := heq
    rw [heq]
    refine ⟨?_, fun _ => rfl, List.prefix_rfl, fun before p after hsplit hkind => ?_⟩
    · rw [hzero hwhole]
      exact Nat.zero_le 1
    · exact absurd hkind (hwhole p (by rw [hsplit]; simp))
  · have hproblems : e.problems = (state n).written.problems ++ r.cancelled :: back.problems :=
      hcut.problems
    have hstarts : (state n).written.problems <+: whole.problems := hcut.starts.problems
    have hbefore : ∀ p ∈ (state n).written.problems, p.kind ≠ .cancelled :=
      fun p hp => hwhole p (hstarts.subset hp)
    have hafter : ∀ p ∈ back.problems, p.kind ≠ .cancelled := hcut.barren.problems
    refine ⟨?_, fun hnone => absurd rfl (hnone r.cancelled (by rw [hproblems]; simp)), hcut.hashed,
      fun before p after hsplit hkind => ?_⟩
    · rw [hproblems, List.countP_append, List.countP_cons, hzero hbefore, hzero hafter]
      split <;> omega
    · -- There is but one place where the problem can stand.
      have hsame := hproblems.symm.trans hsplit
      rw [List.append_cons_inj_of_notMem (fun hp => hbefore p hp hkind)
        (fun hp => hafter p hp hkind)] at hsame
      obtain ⟨rfl, rfl, -⟩ := hsame
      obtain ⟨himports, hlength, hvalues⟩ := hcut.imports
      refine ⟨hstarts, n, r, kept.imports, back.imports, rfl, ?_, rfl, fun m hm => hcut.reads hm,
        himports, hlength, hvalues⟩
      show (s.step^[n + 1] _).written = _
      rw [Function.iterate_succ_apply']
      exact hcut.cut.written

/-- A file with two links. -/
def Shelf.fork : Shelf :=
  ⟨[(⟨"/a.tmpl"⟩, "1"), (⟨"/b.tmpl"⟩, "2"), (⟨"/r.tmpl"⟩, "// [A](a)\n// [B](b)")]⟩

/-- With a signal that comes while the first link's file is read, the second one is not
followed. -/
theorem Extraction.cut_once_fork :
    let signal : Signal := ⟨false, fun _ path => path = ⟨"/a.tmpl"⟩⟩
    let e := run ⟨.standard ⟨"/"⟩, Shelf.fork.loader, signal⟩ ⟨"r.tmpl"⟩ none
    let whole := run (Shelf.fork.setting (.standard ⟨"/"⟩)) ⟨"r.tmpl"⟩ none
    (∃ p, e.problems = [p] ∧ p.kind = .cancelled) ∧ whole.problems = [] ∧
      ∃ r records later, e.ledger.imports = records ++ r :: later ∧
        e.problems = [r.cancelled] ∧ ∀ q ∈ r :: later, q.value = .null := by
  intro signal e whole
  have hlength : e.problems.length = 1 := by decide +kernel
  have hcancelled : ∀ p ∈ e.problems, p.kind = .cancelled := by decide +kernel
  have hwhole : whole.problems = [] := by decide +kernel
  obtain ⟨p, hp⟩ := List.length_eq_one_iff.mp hlength
  have hkind : p.kind = .cancelled := hcancelled p (by rw [hp]; simp)
  obtain ⟨-, -, -, -, hcut⟩ :=
    cut_once Shelf.fork (.standard ⟨"/"⟩) signal ⟨"r.tmpl"⟩ none
  obtain ⟨-, n, r, records, later, -, -, hr, -, himports, -, hvalues⟩ := hcut [] p [] hp hkind
  exact ⟨⟨p, hp, hkind⟩, hwhole, r, records, later, himports, by rw [hp, hr], hvalues⟩

end Stencil
