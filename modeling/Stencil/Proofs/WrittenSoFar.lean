import Stencil.Proofs.SideBySide

/-!
# What has been written so far

While files are being assembled, what has been written is spread over the frames of the machine.
Read from the bottom of the stack to its top it is one ledger, with a record in it for each link
whose file is being assembled. These records have no value yet; but for the values, a step only
adds to the ledger, and so what has been written at any time is the beginning of what is written
in the end.
-/

namespace Stencil

/-- Whether a ledger is the beginning of another, whatever the links gave. -/
def Ledger.Starts (a b : Ledger) : Prop := ∃ more, b.withoutValues = a.withoutValues ++ more

namespace Ledger

theorem starts_of_eq {a b : Ledger} (h : b.withoutValues = a.withoutValues) : a.Starts b :=
  ⟨.empty, by rw [h, append_empty]⟩

theorem starts_append (a b : Ledger) : a.Starts (a ++ b) :=
  ⟨b.withoutValues, withoutValues_append a b⟩

theorem Starts.trans {a b c : Ledger} (h : a.Starts b) (h' : b.Starts c) : a.Starts c := by
  obtain ⟨more, hmore⟩ := h
  obtain ⟨rest, hrest⟩ := h'
  exact ⟨more ++ rest, by rw [hrest, hmore, append_assoc]⟩

theorem Starts.problems {a b : Ledger} (h : a.Starts b) : a.problems <+: b.problems := by
  obtain ⟨more, hmore⟩ := h
  exact ⟨more.problems, (congrArg Ledger.problems hmore).symm⟩

theorem Starts.dependencies {a b : Ledger} (h : a.Starts b) :
    a.dependencies <+: b.dependencies := by
  obtain ⟨more, hmore⟩ := h
  exact ⟨more.dependencies, (congrArg Ledger.dependencies hmore).symm⟩

end Ledger

namespace Waiting

/-- What a file that waits has written, the record of its call included. -/
def written (c : Waiting) (path : Path) : Ledger :=
  c.frame.ledger ++
    { imports := [Setting.record c.frame.path c.directive c.link ⟨path, false, .nothing⟩] }

/-- What the files below a file have written. -/
def writtenBelow : Path → List Waiting → Ledger
  | _, [] => .empty
  | path, c :: rest => writtenBelow c.frame.path rest ++ c.written path

theorem written_resume (c : Waiting) (f : Followed) (l : Ledger) :
    (c.resume f l).ledger =
      c.frame.ledger ++
        ({ imports := [Setting.record c.frame.path c.directive c.link f] } ++ l) := rfl

end Waiting

namespace State

/-- What has been written below the top. -/
def below : State → Ledger
  | running _ top callers _ => Waiting.writtenBelow top.path callers
  | ended .. => .empty

def onTop : State → Ledger
  | running _ top _ _ => top.ledger
  | ended _ outcome => outcome.ledger

/-- What has been written. -/
def written (x : State) : Ledger := x.below ++ x.onTop

end State

namespace Setting

variable {s : Setting} {stack : ActiveStack} {f : Frame} {callers : List Waiting} {w : Watch}
  {d : Directive} {link : Link}

/-! ## What a step writes -/

/-- A call that comes back writes its record and what it wrote. -/
theorem written_back {r : Followed} (h : f.wanted? s = some (d, link))
    (hreply : (s.call stack f.path d link w).value = .back r) :
    (s.step (.running stack f callers w)).written =
      (State.running stack f callers w).written ++
        ({ imports := [record f.path d link r] } ++ (s.call stack f.path d link w).ledger) := by
  rw [step_call h]
  simp only [hreply, State.written, State.below, State.onTop, Waiting.written_resume,
    ← Ledger.append_assoc]
  rfl

/-- A call that opens a file writes its record, without a value, and what opening the file
wrote. -/
theorem written_opened {g : Frame} (h : f.wanted? s = some (d, link))
    (hreply : (s.call stack f.path d link w).value = .opened g) :
    (s.step (.running stack f callers w)).written =
      (State.running stack f callers w).written ++
        ({ imports := [record f.path d link ⟨g.path, false, .nothing⟩] } ++
          ((s.call stack f.path d link w).ledger ++ g.ledger)) := by
  rw [step_call h]
  simp only [hreply, State.written, State.below, State.onTop, Waiting.writtenBelow,
    Waiting.written, Frame.preface, ← Ledger.append_assoc]

theorem written_return {c : Waiting} (h : f.pending = []) :
    (s.step (.running stack f (c :: callers) w)).written.withoutValues =
      (State.running stack f (c :: callers) w).written.withoutValues := by
  rw [step_return h]
  simp only [State.written, State.below, State.onTop, Waiting.written_resume, Waiting.writtenBelow,
    Waiting.written, Ledger.withoutValues_append, Ledger.append_assoc]
  rfl

theorem starts_step (s : Setting) (x : State) : x.written.Starts (s.step x).written := by
  match x with
  | .ended stack outcome => exact Ledger.starts_of_eq rfl
  | .running stack f callers w =>
      cases hwanted : f.wanted? s with
      | some found =>
          obtain ⟨d, link⟩ := found
          cases hreply : (s.call stack f.path d link w).value with
          | back r =>
              rw [written_back hwanted hreply]
              exact Ledger.starts_append _ _
          | opened g =>
              rw [written_opened hwanted hreply]
              exact Ledger.starts_append _ _
      | none =>
          cases hpending : f.pending with
          | nil =>
              cases callers with
              | nil =>
                  rw [step_end hpending]
                  exact Ledger.starts_of_eq rfl
              | cons c rest => exact Ledger.starts_of_eq (written_return hpending)
          | cons demand rest =>
              rw [Frame.wanted?, hpending] at hwanted
              rw [step_met hpending hwanted]
              show Ledger.Starts _ (_ ++ (_ ++ _))
              rw [← Ledger.append_assoc]
              exact Ledger.starts_append _ _

/-! ## Runs -/

theorem starts_iterate (s : Setting) (x : State) (n : Nat) :
    x.written.Starts (s.step^[n] x).written := by
  induction n with
  | zero => exact Ledger.starts_of_eq rfl
  | succ n ih =>
      rw [Function.iterate_succ_apply']
      exact ih.trans (s.starts_step _)

/-- What has been written at any time is the beginning of what an extraction writes. -/
theorem starts_run (s : Setting) (root : Path) (text? : Option String) (n : Nat) :
    (s.step^[n] (s.start root text?)).written.Starts (Extraction.run s root text?).ledger := by
  obtain ⟨m, hm⟩ := s.exists_iterate_step_eq root text?
  have hlater := s.starts_iterate (s.step^[n] (s.start root text?)) m
  rw [← Function.iterate_add_apply, ended_of_le hm (Nat.le_add_right m n)] at hlater
  have hended :
      (State.ended .empty (s.extractRoot root text? (Run.initialWatch s.signal))).written =
        (Extraction.run s root text?).ledger := Ledger.empty_append _
  rw [hended] at hlater
  exact hlater

/-- The problems of a call are problems of the extraction. -/
theorem Calls.mem_problems {root : Path} {text? : Option String} {referrer : Path} {n : Nat}
    (h : s.Calls (s.step^[n] (s.start root text?)) stack referrer d link w) {p : Problem}
    (hp : p ∈ (s.call stack referrer d link w).ledger.problems) :
    p ∈ (Extraction.run s root text?).problems := by
  obtain ⟨f, callers, hstate, rfl, hwanted⟩ := h
  have hstarts := s.starts_run root text? (n + 1)
  rw [Function.iterate_succ_apply', hstate] at hstarts
  refine hstarts.problems.subset ?_
  cases hreply : (s.call stack f.path d link w).value with
  | back r =>
      rw [written_back hwanted hreply]
      exact List.mem_append_right _ (List.mem_append_right _ hp)
  | opened g =>
      rw [written_opened hwanted hreply]
      exact List.mem_append_right _ (List.mem_append_right _ (List.mem_append_left _ hp))

end Setting

namespace Comparison

variable {c : Comparison} {s s' : Setting} {x x' : State}

theorem empty_ledger (hc : c.Kept s s') : c.ledger .empty .empty := hc.counts []

theorem written_below (hc : c.Kept s s') {callers callers' : List Waiting}
    (h : List.Forall₂ c.Callers callers callers') (path : Path) :
    c.ledger (Waiting.writtenBelow path callers) (Waiting.writtenBelow path callers') := by
  induction h generalizing path with
  | nil => exact empty_ledger hc
  | @cons a a' callers callers' ha _ ih =>
      obtain ⟨hframe, hdirective, hlink⟩ := ha
      rw [Waiting.writtenBelow, Waiting.writtenBelow, Waiting.written, Waiting.written,
        hframe.path, hdirective, hlink]
      exact hc.append (ih _) (hc.append hframe.ledger (hc.record _ _ _ _ _ (hc.refl _)))

/-- Machines that are equally far have written what compares. -/
theorem States.written (hc : c.Kept s s') (h : c.States x x') : c.ledger x.written x'.written := by
  cases h with
  | @running _ top top' callers callers' _ _ htop hcallers hwatch =>
      have hbelow : c.ledger (Waiting.writtenBelow top.path callers)
          (Waiting.writtenBelow top'.path callers') := by
        rw [htop.path]
        exact written_below hc hcallers top.path
      exact hc.append hbelow htop.ledger
  | ended hvalue hledger hwatch => exact hc.append (empty_ledger hc) hledger

end Comparison

end Stencil
