import Stencil.Draft

/-!
# The cursor of an assembly

A draft is made from atoms in one pass, by a reader that gives lexemes and a builder that
takes them. The two together are the cursor: what there is to say about a template up to
some place is said about the cursor there. The draft is what the cursor comes to at the
end.

The first fault stops the builder for good, and its draft is then the draft of the whole
template. The reader stops only at a string that breaks off, which stops the builder too.
-/

namespace Stencil

namespace Lexeme.Reading

variable {r : Reading}

/-- The state of a reader behind some atoms. -/
def after (atoms : List Atom) (r : Reading) : Reading := atoms.foldl (fun r a => (r.step a).1) r

theorem start_ne_stopped (place : Location) (c : Char) : (start place c).1 ≠ .stopped := by
  rw [start]
  repeat' split
  all_goals exact Reading.noConfusion

theorem fresh_ne_stopped (a : Atom) : (fresh a).1 ≠ .stopped := by
  cases a with
  | char place c => exact start_ne_stopped place c
  | gap => exact Reading.noConfusion
  | directive d => exact Reading.noConfusion

/-- Whether a step goes on, or breaks a string off and gives nothing else. -/
def GoesOn (next : Reading × List Lexeme) : Prop :=
  next.1 ≠ .stopped ∨ ∃ begin pieces place fault, next.2 = [⟨begin, .brokenText pieces place fault⟩]

theorem goesOn_breakOff (begin : Location) (pieces : List Piece) (place : Location)
    (fault : Fault) :
    GoesOn (breakOff begin pieces place fault) :=
  Or.inr ⟨begin, pieces.reverse, place, fault, rfl⟩

theorem goesOn_inText (begin : Location) (pieces : List Piece) (a : Atom) :
    GoesOn (inText begin pieces a) := by
  cases a with
  | gap => exact Or.inl Reading.noConfusion
  | directive d =>
      rw [inText]
      split
      · exact goesOn_breakOff ..
      · exact Or.inl Reading.noConfusion
  | char place c =>
      rw [inText]
      repeat' split
      all_goals first | exact goesOn_breakOff .. | exact Or.inl Reading.noConfusion

theorem goesOn_inEscape (begin : Location) (pieces : List Piece) (a : Atom) :
    GoesOn (inEscape begin pieces a) := by
  cases a with
  | gap => exact Or.inl Reading.noConfusion
  | directive d => exact goesOn_breakOff ..
  | char place c =>
      rw [inEscape]
      repeat' split
      all_goals first | exact goesOn_breakOff .. | exact Or.inl Reading.noConfusion

theorem goesOn_escaped (e : Escape) (n : Nat) : GoesOn (escaped e n) := by
  rw [escaped]
  repeat' split
  all_goals first | exact goesOn_breakOff .. | exact Or.inl Reading.noConfusion

theorem goesOn_digit (e : Escape) (place : Location) (chars : List Char) (c : Char) :
    GoesOn (digit e place chars c) := by
  rw [digit.eq_def]
  repeat' split
  all_goals
    first | exact goesOn_escaped .. | exact goesOn_breakOff .. | exact Or.inl Reading.noConfusion

/-- The reader only stops where a string breaks off. -/
theorem goesOn_step (h : r ≠ .stopped) (a : Atom) : GoesOn (r.step a) := by
  cases r with
  | between => exact Or.inl (fresh_ne_stopped a)
  | slash begin =>
      cases a with
      | char place c =>
          simp only [step]
          split
          · exact Or.inl Reading.noConfusion
          · split
            · exact Or.inl Reading.noConfusion
            · exact Or.inl (start_ne_stopped place c)
      | gap => exact Or.inl Reading.noConfusion
      | directive d => exact Or.inl Reading.noConfusion
  | lineComment =>
      cases a with
      | char place c =>
          simp only [step]
          split
          · exact Or.inl (start_ne_stopped place c)
          · exact Or.inl Reading.noConfusion
      | gap => exact Or.inl Reading.noConfusion
      | directive d => exact Or.inl Reading.noConfusion
  | blockComment begin =>
      cases a with
      | char place c =>
          simp only [step]
          split <;> exact Or.inl Reading.noConfusion
      | gap => exact Or.inl Reading.noConfusion
      | directive d => exact Or.inl Reading.noConfusion
  | blockStar begin =>
      cases a with
      | char place c =>
          simp only [step]
          repeat' split
          all_goals exact Or.inl Reading.noConfusion
      | gap => exact Or.inl Reading.noConfusion
      | directive d => exact Or.inl Reading.noConfusion
  | text begin pieces => exact goesOn_inText begin pieces a
  | escape begin pieces => exact goesOn_inEscape begin pieces a
  | digits e place chars =>
      cases a with
      | char _ c => exact goesOn_digit e place chars c
      | gap => exact goesOn_breakOff ..
      | directive d => exact goesOn_breakOff ..
  | noDigits e =>
      cases a with
      | char place c => exact goesOn_digit e place [] c
      | gap => exact Or.inl Reading.noConfusion
      | directive d => exact goesOn_breakOff ..
  | digitsMissing e =>
      cases a with
      | char place c => exact goesOn_breakOff ..
      | gap => exact Or.inl Reading.noConfusion
      | directive d => exact goesOn_breakOff ..
  | pairBackslash e | pairLetter e =>
      cases a with
      | char place c =>
          simp only [step]
          split
          · exact Or.inl Reading.noConfusion
          · exact goesOn_breakOff ..
      | gap => exact goesOn_breakOff ..
      | directive d => exact goesOn_breakOff ..
  | number begin chars | word begin chars =>
      cases a with
      | char place c =>
          simp only [step]
          split
          · exact Or.inl Reading.noConfusion
          · exact Or.inl (start_ne_stopped place c)
      | gap => exact Or.inl Reading.noConfusion
      | directive d => exact Or.inl Reading.noConfusion
  | stopped => exact absurd rfl h

end Lexeme.Reading

namespace Draft

namespace Builder

variable {b : Builder} {draft : Draft}

theorem foldl_step_stopped (draft : Draft) (lexemes : List Lexeme) :
    lexemes.foldl step (.stopped draft) = .stopped draft := by
  induction lexemes with
  | nil => rfl
  | cons l rest ih => exact ih

theorem step_brokenText (b : Builder) (begin : Location) (pieces : List Piece) (place : Location)
    (fault : Fault) : ∃ draft, b.step ⟨begin, .brokenText pieces place fault⟩ = .stopped draft := by
  cases b <;> exact ⟨_, rfl⟩

theorem fill_ne_stopped (start : Location) (value : Node) (h : Hole) (draft : Draft) :
    h.fill start value ≠ .stopped draft := by
  cases h <;> exact Builder.noConfusion

theorem fault_of_failValue {hole : Hole} {start : Location} {value : Node} {place : Location}
    {fault : Fault} (h : failValue hole start value place fault = .stopped draft) :
    draft.fault.isSome := by
  cases h
  rfl

theorem fault_of_takeValue {hole : Hole} {l : Lexeme} (h : takeValue hole l = .stopped draft) :
    draft.fault.isSome := by
  unfold takeValue at h
  repeat' split at h
  all_goals
    first
    | exact absurd h (fill_ne_stopped _ _ _ _)
    | exact fault_of_failValue h
    | cases h

theorem fault_of_takeMember {outer : Hole} {start : Location} {earlier : Members} {l : Lexeme}
    (h : takeMember outer start earlier l = .stopped draft) : draft.fault.isSome := by
  unfold takeMember at h
  repeat' split at h
  all_goals
    first
    | exact absurd h (fill_ne_stopped _ _ _ _)
    | exact fault_of_failValue h
    | cases h

/-- A builder only stops with a fault. -/
theorem fault_of_step {l : Lexeme} (h : b.step l = .stopped draft) :
    b = .stopped draft ∨ draft.fault.isSome := by
  cases b with
  | stopped d => exact Or.inl h
  | body | element | afterElement | member | afterMember | afterLink | colon | memberValue
  | finished =>
      refine Or.inr ?_
      simp only [step] at h
      repeat' split at h
      all_goals
        first
        | exact absurd h (fill_ne_stopped _ _ _ _)
        | exact fault_of_failValue h
        | exact fault_of_takeValue h
        | exact fault_of_takeMember h
        | (cases h <;> rfl)

/-- Whether a builder has a fault if it has stopped. -/
def FaultIfStopped (b : Builder) : Prop := ∀ draft, b = .stopped draft → draft.fault.isSome

theorem FaultIfStopped.foldl (h : b.FaultIfStopped) (lexemes : List Lexeme) :
    (lexemes.foldl step b).FaultIfStopped :=
  List.foldlRecOn (motive := FaultIfStopped) lexemes step h
    fun _ hb _ _ draft hd => (fault_of_step hd).elim (hb draft) id

end Builder

/-- How far an assembly has come: what is being read, and what has been built. -/
structure Cursor where
  reading : Lexeme.Reading
  builder : Builder

namespace Cursor

def start : Cursor := ⟨.between, .body []⟩

def step (k : Cursor) (a : Atom) : Cursor :=
  let (reading, lexemes) := k.reading.step a
  ⟨reading, lexemes.foldl Builder.step k.builder⟩

/-- The cursor behind some atoms. -/
def after (atoms : List Atom) : Cursor := atoms.foldl step start

/-- The draft, where nothing comes any more. -/
def finish (last : Location) (k : Cursor) : Draft :=
  ((k.reading.finish last).foldl Builder.step k.builder).finish last

/-- Whether there has been a fault. -/
def Failed (k : Cursor) : Prop := ∃ draft, k.builder = .stopped draft

theorem finish_foldl (last : Location) (k : Cursor) (atoms : List Atom) :
    (atoms.foldl step k).finish last =
      ((k.reading.run last atoms).foldl Builder.step k.builder).finish last := by
  induction atoms generalizing k with
  | nil => rfl
  | cons a rest ih =>
      rw [List.foldl_cons, ih, Lexeme.Reading.run, List.foldl_append]
      rfl

theorem finish_after (tokens : List Token) :
    (after (Atom.ofTokens 0 tokens)).finish (endOfTokens tokens) = Draft.ofTokens tokens :=
  finish_foldl (endOfTokens tokens) start (Atom.ofTokens 0 tokens)

/-- Where the reader has stopped, there has been a fault. -/
def Settled (k : Cursor) : Prop := k.reading = .stopped → k.Failed

theorem Settled.step {k : Cursor} (h : k.Settled) (a : Atom) : (k.step a).Settled := by
  intro hstopped
  have hbuilder : (k.step a).builder = (k.reading.step a).2.foldl Builder.step k.builder := rfl
  by_cases hread : k.reading = .stopped
  · obtain ⟨draft, hdraft⟩ := h hread
    refine ⟨draft, ?_⟩
    rw [hbuilder, hdraft, Builder.foldl_step_stopped]
  · rcases Lexeme.Reading.goesOn_step hread a with hgoes | ⟨begin, pieces, place, fault, hbroken⟩
    · exact absurd hstopped hgoes
    · obtain ⟨draft, hdraft⟩ := Builder.step_brokenText k.builder begin pieces place fault
      refine ⟨draft, ?_⟩
      rw [hbuilder, hbroken]
      exact hdraft

theorem settled_after (atoms : List Atom) : (after atoms).Settled :=
  List.foldlRecOn (motive := Settled) atoms Cursor.step Lexeme.Reading.noConfusion
    fun _ hk a _ => hk.step a

theorem reading_after (atoms : List Atom) :
    (after atoms).reading = Lexeme.Reading.between.after atoms := by
  have hfold (k : Cursor) : (atoms.foldl Cursor.step k).reading = k.reading.after atoms := by
    induction atoms generalizing k with
    | nil => rfl
    | cons a rest ih => exact ih _
  exact hfold start

theorem faultIfStopped_after (atoms : List Atom) : (after atoms).builder.FaultIfStopped :=
  List.foldlRecOn (motive := fun k => k.builder.FaultIfStopped) atoms Cursor.step
    (fun _ h => by cases h) fun _ hk _ _ => hk.foldl _

/-- A fault behind some atoms is the fault of the whole draft. -/
theorem ofTokens_of_failed {tokens : List Token} {before later : List Atom} {draft : Draft}
    (hatoms : Atom.ofTokens 0 tokens = before ++ later)
    (h : (after before).builder = .stopped draft) :
    Draft.ofTokens tokens = draft ∧ draft.fault.isSome := by
  refine ⟨?_, faultIfStopped_after before draft h⟩
  rw [← finish_after, hatoms, after, List.foldl_append]
  show (later.foldl step (after before)).finish (endOfTokens tokens) = draft
  rw [finish_foldl, h, Builder.foldl_step_stopped]
  rfl

end Cursor

end Draft

end Stencil
