import Stencil.Extraction
import Stencil.Proofs.Cursor
import Stencil.Proofs.Scanning

/-!
# Scanner and reader keep step

Strings and comments are recognized twice. The scanner does it to find directives, with
one flag and one look ahead; the reader does it to find lexemes, in its states. Neither
knows of the other, and if they ever disagreed, comments would turn into links or text
into directives.

They agree because the scanner's mode can be told from the reader's state and the
character to come: `Reading.mode?` says how. A character leads from states with a mode to
states with the mode after it, and a directive is only found in modes where the reader is
not in a comment. The reader stops at the first string that breaks off, and then the
builder has stopped with a fault; up to there the two are in step.
-/

namespace Stencil

namespace Lexeme

/-- The two kinds of comments. -/
inductive Comment where
  | line
  | block
  deriving DecidableEq

namespace Reading

/-- The scanner's mode when the reader is in a state and some text is to come; none once the
reader has stopped. -/
def mode? (rest : List Char) : Reading → Option Scan.Mode
  | .between | .number .. | .word .. => some .plain
  | .slash _ =>
      if rest.head? = some '*' then some .blockOpening
      else if rest.head? = some '/' then some .lineComment
      else some .plain
  | .lineComment => some .lineComment
  | .blockComment _ => some .blockComment
  | .blockStar _ => if rest.head? = some '/' then some .blockClosing else some .blockComment
  | .text .. | .digits .. | .noDigits _ | .digitsMissing _ | .pairBackslash _ => some .string
  | .escape .. | .pairLetter _ => some .escape
  | .stopped => none

/-- Whether the reader is between the quotes of a string. -/
def inString : Reading → Bool
  | .text .. | .escape .. | .digits .. | .noDigits _ | .digitsMissing _ | .pairBackslash _
  | .pairLetter _ => true
  | _ => false

def inComment : Reading → Bool
  | .lineComment | .blockComment _ | .blockStar _ => true
  | _ => false

/-- The comment that a character belongs to, from the second character of its opening on. -/
def comment? (c : Char) : Reading → Option Comment
  | .slash _ => if c = '/' then some .line else if c = '*' then some .block else none
  | .lineComment => if c = '\n' then none else some .line
  | .blockComment _ | .blockStar _ => some .block
  | _ => none

/-- Where the comment ends that a character ends: before the end of its line or behind its
closing. -/
def commentEnd? (place : Location) (c : Char) : Reading → Option Location
  | .lineComment => if c = '\n' then some place else none
  | .blockStar _ => if c = '/' then some (place.advance c) else none
  | _ => none

end Reading

end Lexeme

namespace Scan.Mode

/-- Whether the scanner's flag for strings is set. -/
def inString : Mode → Bool
  | .string | .escape => true
  | _ => false

def inComment : Mode → Bool
  | .lineComment | .blockOpening | .blockComment | .blockClosing => true
  | _ => false

def comment? (c : Char) : Mode → Option Lexeme.Comment
  | .lineComment => if c = '\n' then none else some .line
  | .blockOpening | .blockComment | .blockClosing => some .block
  | _ => none

def commentEnd? (place : Location) (c : Char) : Mode → Option Location
  | .lineComment => if c = '\n' then some place else none
  | .blockClosing => some (place.advance c)
  | _ => none

end Scan.Mode

namespace Lexeme.Reading

/-! ## One step -/

variable {r : Reading} {mode : Scan.Mode} {place : Location} {c : Char} {rest : List Char}

theorem next_plain (h : c ≠ '/') (h' : c ≠ '"') : Scan.Mode.plain.next c rest = .plain := by
  simp [Scan.Mode.next, h, h']

/-- Characters of a kind that neither a slash nor a quote is of leave the scanner in plain text. -/
theorem next_plain_of_kind {kind : Char → Bool} (hc : kind c = true) (hslash : kind '/' = false)
    (hquote : kind '"' = false) : Scan.Mode.plain.next c rest = .plain := by
  refine next_plain ?_ ?_
  · rintro rfl
    cases hc.symm.trans hslash
  · rintro rfl
    cases hc.symm.trans hquote

theorem next_string (h : c ≠ '\\') (h' : c ≠ '"') (h'' : c ≠ '\n') :
    Scan.Mode.string.next c rest = .string := by
  simp [Scan.Mode.next, h, h', h'']

theorem mode?_start (place : Location) (c : Char) (rest : List Char) :
    (start place c).1.mode? rest = some (Scan.Mode.plain.next c rest) := by
  by_cases hfiller : isFiller c = true
  · rw [start, if_pos hfiller, next_plain_of_kind hfiller rfl rfl]
    rfl
  · by_cases hslash : c = '/'
    · rw [start, if_neg hfiller, if_pos hslash, hslash]
      simp only [mode?, Scan.Mode.next, true_and]
      split
      · rfl
      · split <;> rfl
    · by_cases hquote : c = '"'
      · rw [start, if_neg hfiller, if_neg hslash, if_pos hquote]
        simp [mode?, Scan.Mode.next, hquote]
      · rw [start, if_neg hfiller, if_neg hslash, if_neg hquote, next_plain hslash hquote]
        split
        · rfl
        · split
          · rfl
          · split <;> rfl

/-- Whether a reader is where the scanner is, or has stopped. -/
def InStep (mode : Scan.Mode) (rest : List Char) (r : Reading) : Prop :=
  r = .stopped ∨ r.mode? rest = some mode

theorem inStep_start (place : Location) (c : Char) (rest : List Char) :
    (start place c).1.InStep (Scan.Mode.plain.next c rest) rest := Or.inr (mode?_start place c rest)

theorem inStep_stopped (mode : Scan.Mode) (rest : List Char) : stopped.InStep mode rest :=
  Or.inl rfl

theorem inStep_star (begin : Location) (c : Char) (rest : List Char) :
    (if c = '*' then blockStar begin else blockComment begin).InStep
      (Scan.Mode.blockComment.next c rest) rest := by
  by_cases hstar : c = '*'
  · refine Or.inr ?_
    simp only [hstar, if_true, mode?, Scan.Mode.next, true_and]
    split <;> rfl
  · refine Or.inr ?_
    simp only [hstar, if_false, mode?, Scan.Mode.next, false_and]

theorem inStep_escaped (e : Escape) (n : Nat) (rest : List Char) :
    (escaped e n).1.InStep .string rest := by
  rw [escaped]
  split
  · split
    · exact Or.inr rfl
    · exact inStep_stopped _ _
  · split
    · exact Or.inr rfl
    · split
      · exact inStep_stopped _ _
      · exact Or.inr rfl

theorem next_string_of_hexDigit? (h : (Json.Reader.hexDigit? c).isSome) :
    Scan.Mode.string.next c rest = .string := by
  refine next_string ?_ ?_ ?_
  · rintro rfl
    exact absurd h (by decide)
  · rintro rfl
    exact absurd h (by decide)
  · rintro rfl
    exact absurd h (by decide)

theorem inStep_digit (e : Escape) (place : Location) (chars : List Char) (c : Char)
    (rest : List Char) : (digit e place chars c).1.InStep (Scan.Mode.string.next c rest) rest := by
  rw [digit.eq_def]
  split
  · split
    · next n hhex =>
        simp only [Json.Reader.hex4?, Option.bind_eq_bind, Option.bind_eq_some_iff] at hhex
        obtain ⟨_, -, _, -, _, -, d, hd, -⟩ := hhex
        rw [next_string_of_hexDigit? (by rw [hd]; rfl)]
        exact inStep_escaped e n rest
    · exact inStep_stopped _ _
  · split
    · next hhex =>
        rw [next_string_of_hexDigit? hhex]
        exact Or.inr rfl
    · exact inStep_stopped _ _

theorem InStep.step_char (h : r.InStep mode (c :: rest)) (place : Location) :
    (r.step (.char place c)).1.InStep (mode.next c rest) rest := by
  rcases h with rfl | h
  · exact inStep_stopped _ _
  cases r with
  | between =>
      cases h
      exact inStep_start place c rest
  | slash begin =>
      simp only [mode?, List.head?_cons, Option.some.injEq] at h
      simp only [step]
      split
      · next hslash =>
          subst hslash
          cases h
          exact Or.inr rfl
      · next hslash =>
          split
          · next hstar =>
              subst hstar
              cases h
              exact Or.inr rfl
          · next hstar =>
              rw [if_neg hstar, if_neg hslash] at h
              cases h
              exact inStep_start place c rest
  | lineComment =>
      cases h
      simp only [step, Scan.Mode.next]
      split
      · next hend =>
          subst hend
          exact inStep_start place '\n' rest
      · exact Or.inr rfl
  | blockComment begin =>
      cases h
      exact inStep_star begin c rest
  | blockStar begin =>
      simp only [mode?, List.head?_cons, Option.some.injEq] at h
      simp only [step]
      split
      · next hslash =>
          rw [if_pos hslash] at h
          cases h
          exact Or.inr rfl
      · next hslash =>
          rw [if_neg hslash] at h
          cases h
          exact inStep_star begin c rest
  | text begin pieces =>
      cases h
      simp only [step, inText]
      split
      · next hquote =>
          subst hquote
          exact Or.inr rfl
      · next hquote =>
          split
          · next hescape =>
              subst hescape
              exact Or.inr rfl
          · next hescape =>
              split
              · exact inStep_stopped _ _
              · next hnewline =>
                  split
                  · exact inStep_stopped _ _
                  · rw [next_string hescape hquote hnewline]
                    exact Or.inr rfl
  | escape begin pieces =>
      cases h
      simp only [step, inEscape]
      split
      · next hletter =>
          subst hletter
          exact Or.inr rfl
      · split
        · next hescape =>
            have hnewline : c ≠ '\n' := by rintro rfl; cases hescape
            simp only [Scan.Mode.next, hnewline, if_false]
            exact Or.inr rfl
        · exact inStep_stopped _ _
  | digits e first chars =>
      cases h
      exact inStep_digit e first chars c rest
  | noDigits e =>
      cases h
      exact inStep_digit e place [] c rest
  | digitsMissing e => exact inStep_stopped _ _
  | pairBackslash e =>
      cases h
      simp only [step]
      split
      · next hescape =>
          subst hescape
          exact Or.inr rfl
      · exact inStep_stopped _ _
  | pairLetter e =>
      cases h
      simp only [step]
      split
      · next hletter =>
          subst hletter
          exact Or.inr rfl
      · exact inStep_stopped _ _
  | number begin chars =>
      cases h
      simp only [step]
      split
      · next hchar =>
          rw [next_plain_of_kind hchar (by decide) (by decide)]
          exact Or.inr rfl
      · exact inStep_start place c rest
  | word begin chars =>
      cases h
      simp only [step]
      split
      · next hchar =>
          rw [next_plain_of_kind hchar (by decide) (by decide)]
          exact Or.inr rfl
      · exact inStep_start place c rest
  | stopped => exact inStep_stopped _ _

/-- What is not a character is only found outside comments and escapes. -/
theorem InStep.step_other (h : r.InStep mode rest) (hsees : mode.seesBrackets = true) {a : Atom}
    (ha : ∀ place c, a ≠ .char place c) (after : List Char) :
    (r.step a).1.InStep mode after := by
  rcases h with rfl | h
  · exact inStep_stopped _ _
  have hplain (hmode : mode = .plain) : (fresh a).1.InStep mode after := by
    cases a with
    | char place c => exact absurd rfl (ha place c)
    | gap => exact Or.inr (congrArg some hmode.symm)
    | directive d => exact Or.inr (congrArg some hmode.symm)
  cases r with
  | between => exact hplain (Option.some.inj h).symm
  | slash begin =>
      have hmode : mode = .plain := by
        simp only [mode?] at h
        split at h
        · cases h; cases hsees
        · split at h
          · cases h; cases hsees
          · exact (Option.some.inj h).symm
      cases a with
      | char place c => exact absurd rfl (ha place c)
      | gap => exact hplain hmode
      | directive d => exact hplain hmode
  | lineComment => cases h; cases hsees
  | blockComment begin => cases h; cases hsees
  | blockStar begin =>
      simp only [mode?] at h
      split at h <;> (cases h; cases hsees)
  | text begin pieces =>
      cases a with
      | char place c => exact absurd rfl (ha place c)
      | gap => exact Or.inr h
      | directive d =>
          simp only [step, inText]
          split
          · exact inStep_stopped _ _
          · exact Or.inr h
  | escape begin pieces => cases h; cases hsees
  | noDigits e | digitsMissing e =>
      cases a with
      | char place c => exact absurd rfl (ha place c)
      | gap => exact Or.inr h
      | directive d => exact inStep_stopped _ _
  | digits e first chars =>
      cases a with
      | char place c => exact absurd rfl (ha place c)
      | gap => exact inStep_stopped _ _
      | directive d => exact inStep_stopped _ _
  | pairBackslash e =>
      cases a with
      | char place c => exact absurd rfl (ha place c)
      | gap => exact inStep_stopped _ _
      | directive d => exact inStep_stopped _ _
  | pairLetter e => cases h; cases hsees
  | number begin chars | word begin chars =>
      have hmode : mode = .plain := (Option.some.inj h).symm
      cases a with
      | char place c => exact absurd rfl (ha place c)
      | gap => exact hplain hmode
      | directive d => exact hplain hmode
  | stopped => exact inStep_stopped _ _

/-- Where a directive may stand, nothing of what is to come matters. -/
theorem InStep.at_end (h : r.InStep mode rest) (hsees : mode.seesBrackets = true) :
    r.InStep mode [] := by
  rcases h with rfl | h
  · exact inStep_stopped _ _
  cases r with
  | slash begin =>
      simp only [mode?] at h
      split at h
      · cases h; cases hsees
      · split at h
        · cases h; cases hsees
        · exact Or.inr h
  | blockStar begin =>
      simp only [mode?] at h
      split at h <;> (cases h; cases hsees)
  | _ => exact Or.inr h

/-! ## The way through a text -/

/-- Whether a reader comes to an atom in step with the scanner's visit that found it. -/
inductive Meets (r : Reading) : Scan.Visit → Atom → Prop
  | char {mode : Scan.Mode} {place : Location} {c : Char} {rest : List Char}
      (h : r.InStep mode (c :: rest)) : Meets r ⟨place, mode, .char c⟩ (.char place c)
  | other {v : Scan.Visit} {a : Atom} {rest : List Char} (h : r.InStep v.mode rest)
      (hsees : v.mode.seesBrackets = true) (ha : ∀ place c, a ≠ .char place c) : Meets r v a

theorem InStep.exists_meets {text : List Char} {passed : Nat} {before later : List Atom} {a : Atom}
    (h : r.InStep mode (text.drop passed))
    (hgives : List.Forall₂ Scan.Visit.Gives (Scan.visits mode passed place text)
      (before ++ a :: later)) :
    ∃ v ∈ Scan.visits mode passed place text, (r.after before).Meets v a := by
  induction text generalizing mode passed place r before with
  | nil => cases before <;> cases hgives
  | cons c rest ih =>
      match passed with
      | passed + 1 => exact ih h hgives
      | 0 =>
          rcases Scan.find_cases mode c rest with
            hfind | ⟨content, raw, _, hfind, hsees, hcontent, rfl⟩ | ⟨bracket, hfind, hsees⟩
          · simp only [Scan.visits, hfind] at hgives ⊢
            cases before with
            | nil =>
                cases hgives with
                | cons hgive _ =>
                    rw [hgive.eq_char rfl]
                    exact ⟨_, List.mem_cons_self, .char h⟩
            | cons b before =>
                cases hgives with
                | cons hgive hgives =>
                    rw [hgive.eq_char rfl]
                    obtain ⟨v, hv, hmeets⟩ := ih (h.step_char place) hgives
                    exact ⟨v, List.mem_cons_of_mem _ hv, hmeets⟩
          · simp only [Scan.visits, hfind] at hgives ⊢
            cases before with
            | nil =>
                cases hgives with
                | cons hgive _ => exact ⟨_, List.mem_cons_self, .other h hsees (hgive.ne_char rfl)⟩
            | cons b before =>
                cases hgives with
                | cons hgive hgives =>
                    obtain ⟨v, hv, hmeets⟩ :=
                      ih (h.step_other hsees (hgive.ne_char rfl) _) hgives
                    exact ⟨v, List.mem_cons_of_mem _ hv, hmeets⟩
          · simp only [Scan.visits, hfind] at hgives
            cases before <;> cases hgives

/-- Where the text ends, the reader is where the scanner is. -/
theorem InStep.last {text : List Char} {passed : Nat} {atoms : List Atom}
    (h : r.InStep mode (text.drop passed))
    (hgives : List.Forall₂ Scan.Visit.Gives (Scan.visits mode passed place text) atoms) :
    (r.after atoms).InStep (Scan.lastMode mode passed text) [] := by
  induction text generalizing mode passed place r atoms with
  | nil =>
      cases hgives
      rw [List.drop_nil] at h
      exact h
  | cons c rest ih =>
      match passed with
      | passed + 1 => exact ih h hgives
      | 0 =>
          rcases Scan.find_cases mode c rest with
            hfind | ⟨content, raw, _, hfind, hsees, hcontent, rfl⟩ | ⟨bracket, hfind, hsees⟩
          · simp only [Scan.visits, Scan.lastMode, hfind] at hgives ⊢
            cases hgives with
            | cons hgive hgives =>
                rw [hgive.eq_char rfl]
                have hlast := ih (h.step_char place) hgives
                exact hlast
          · simp only [Scan.visits, Scan.lastMode, hfind] at hgives ⊢
            cases hgives with
            | cons hgive hgives =>
                have hlast := ih (h.step_other hsees (hgive.ne_char rfl) _) hgives
                exact hlast
          · simp only [Scan.visits, Scan.lastMode, hfind] at hgives ⊢
            cases hgives
            exact h.at_end hsees

/-! ## Strings and comments -/

theorem inString_eq (h : r.mode? rest = some mode) : r.inString = mode.inString := by
  cases r with
  | slash begin =>
      simp only [mode?] at h
      split at h
      · cases h; rfl
      · split at h <;> (cases h; rfl)
  | blockStar begin =>
      simp only [mode?] at h
      split at h <;> (cases h; rfl)
  | _ => cases h <;> rfl

theorem inComment_eq (h : r.mode? [] = some mode) : r.inComment = mode.inComment := by
  cases r with
  | _ => cases h <;> rfl

theorem inComment_of_seesBrackets (h : r.mode? rest = some mode)
    (hsees : mode.seesBrackets = true) : r.inComment = false := by
  cases r with
  | lineComment | blockComment => cases h; cases hsees
  | blockStar begin =>
      simp only [mode?] at h
      split at h <;> (cases h; cases hsees)
  | _ => rfl

theorem comment?_eq (h : r.mode? (c :: rest) = some mode) : r.comment? c = mode.comment? c := by
  cases r with
  | slash begin =>
      simp only [mode?, List.head?_cons, Option.some.injEq] at h
      by_cases hslash : c = '/'
      · subst hslash
        cases h
        rfl
      · rw [comment?, if_neg hslash]
        by_cases hstar : c = '*'
        · subst hstar
          cases h
          rfl
        · rw [if_neg hstar, if_neg hslash] at h
          cases h
          rw [if_neg hstar]
          rfl
  | blockStar begin =>
      simp only [mode?] at h
      split at h <;> (cases h; rfl)
  | _ => cases h <;> rfl

theorem commentEnd?_eq (h : r.mode? (c :: rest) = some mode) (place : Location) :
    r.commentEnd? place c = mode.commentEnd? place c := by
  cases r with
  | slash begin =>
      simp only [mode?, List.head?_cons, Option.some.injEq] at h
      split at h
      · cases h; rfl
      · split at h
        · next hslash =>
            subst hslash
            cases h
            rfl
        · cases h; rfl
  | blockStar begin =>
      simp only [mode?, List.head?_cons, Option.some.injEq] at h
      split at h
      · next hslash =>
          cases h
          exact if_pos hslash
      · next hslash =>
          cases h
          exact if_neg hslash
  | _ => cases h <;> rfl

end Lexeme.Reading

/-- Assembles a draft of a template. -/
def Setting.assembleDraft (s : Setting) (path : Path) (tokens : List Token)
    (follow : Directive → Link → Run Assembled) (draft : Draft) : Run Assembled := do
  Run.tell {
    variableCount := tokens.countP fun t => t.kind == .variable
    controlCount := tokens.countP fun t => t.kind == .controlBlock }
  let directives := Directive.ofTokens 0 tokens
  let scope : Scope := ⟨path, linkNames directives, s.options.defaultValues, follow⟩
  let ((value, entries), _) ← (draft.assemble scope (directives.filter Directive.isLink)).run []
  return ⟨value, if s.options.buildSourceMap then .ofList entries else .empty⟩

/-- Up to the first fault of a text's draft the reader and the scanner agree. Whenever the cursor
stands on a character, the scanner has visited the same byte, in a string or in a comment exactly
if the reader is, and a comment ends there exactly if it does for the reader, in the same place. A
comment of the reader does not reach a directive or a control block, and at the end of the text
one is open for both or for none. -/
theorem Scan.in_step_ofText (text : String) :
    let tokens := (Scan.ofText text).tokens
    let atoms := Atom.ofTokens 0 tokens
    let visits := Scan.visits .plain 0 .start text.toList
    (visits.map Visit.mark = (cut .plain 0 text.toList).marks ∧
      visits.Pairwise fun u v => u.place.offset < v.place.offset) ∧
    (∀ (s : Setting) (path : Path) (follow : Directive → Link → Run Assembled),
      s.assemble path tokens follow =
        s.assembleDraft path tokens follow
          ((Draft.Cursor.after atoms).finish (endOfTokens tokens))) ∧
    (∀ before later draft, atoms = before ++ later →
      (Draft.Cursor.after before).builder = .stopped draft →
        Draft.ofTokens tokens = draft ∧ draft.fault.isSome) ∧
    (∀ before place c later, atoms = before ++ .char place c :: later →
      ¬(Draft.Cursor.after before).Failed →
        let reading := (Draft.Cursor.after before).reading
        ∃ mode, ⟨place, mode, .char c⟩ ∈ visits ∧ reading.inString = mode.inString ∧
          reading.comment? c = mode.comment? c ∧
          reading.commentEnd? place c = mode.commentEnd? place c) ∧
    (∀ before a later, atoms = before ++ a :: later → (∀ place c, a ≠ .char place c) →
      ¬(Draft.Cursor.after before).Failed →
        (Draft.Cursor.after before).reading.inComment = false) ∧
    (¬(Draft.Cursor.after atoms).Failed →
      (Draft.Cursor.after atoms).reading.inComment =
        (lastMode .plain 0 text.toList).inComment) := by
  intro tokens atoms visits
  have hgives : List.Forall₂ Visit.Gives visits atoms := gives_ofText text
  have hstart : Lexeme.Reading.between.InStep .plain (text.toList.drop 0) := Or.inr rfl
  have hmeets {before : List Atom} {a : Atom} {later : List Atom}
      (hatoms : atoms = before ++ a :: later) :
      ∃ v ∈ visits, (Draft.Cursor.after before).reading.Meets v a := by
    rw [Draft.Cursor.reading_after]
    exact hstart.exists_meets (hatoms ▸ hgives)
  have hmode {before : List Atom} {mode : Mode} {rest : List Char}
      (h : (Draft.Cursor.after before).reading.InStep mode rest)
      (hfailed : ¬(Draft.Cursor.after before).Failed) :
      (Draft.Cursor.after before).reading.mode? rest = some mode :=
    h.resolve_left fun hstopped => hfailed (Draft.Cursor.settled_after before hstopped)
  refine ⟨⟨map_mark_visits .., pairwise_visits ..⟩, fun s path follow => ?_,
    fun before later draft hatoms => Draft.Cursor.ofTokens_of_failed hatoms, ?_, ?_, ?_⟩
  · rw [Draft.Cursor.finish_after]
    rfl
  · intro before place c later hatoms hfailed
    obtain ⟨v, hv, hmeet⟩ := hmeets hatoms
    cases hmeet with
    | @char mode _ _ rest h =>
        have h' := hmode h hfailed
        exact ⟨mode, hv, Lexeme.Reading.inString_eq h', Lexeme.Reading.comment?_eq h',
          Lexeme.Reading.commentEnd?_eq h' place⟩
    | other _ _ ha => exact absurd rfl (ha place c)
  · intro before a later hatoms ha hfailed
    obtain ⟨v, hv, hmeet⟩ := hmeets hatoms
    cases hmeet with
    | char h => exact absurd rfl (ha _ _)
    | other h hsees _ =>
        exact Lexeme.Reading.inComment_of_seesBrackets (hmode h hfailed) hsees
  · intro hfailed
    have hlast := hstart.last hgives
    rw [← Draft.Cursor.reading_after] at hlast
    exact Lexeme.Reading.inComment_eq (hmode hlast hfailed)

end Stencil
