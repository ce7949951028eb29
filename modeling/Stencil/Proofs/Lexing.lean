import Mathlib.Data.List.TakeWhile
import Stencil.Proofs.Numerals

/-!
# Lexing by the grammar

What the reader makes of a text is looked at here as a list of lexemes for a text, and no more
as a state for an atom. Behind a lexeme, or behind trivia, the reader is between lexemes again,
so what it makes of the text from there on does not depend on what came before: this is what
lets the grammar and the reader be compared piece by piece.

There are two directions. What the grammar can spell is read as the lexeme it is (`lex_mark`,
`lex_string`, `lex_numeral`, `lex_keyword`, and `lex_trivia` for what is passed over); a
number and a word need something behind them that delimits them. And whatever a text is, it
begins with trivia and then with something that is spelled like its first lexeme, unless that
lexeme is a fault in itself (`first_lex`).
-/

namespace Stencil

namespace Lexeme

open Grammar (Trivia Inside)
open Json.Reader (hexDigit? hex4? simpleEscape? isHighSurrogate isLowSurrogate pairChar
  isNumberChar)

theorem isFiller_iff {c : Char} : isFiller c = true ↔ Text.isBlank c = true ∨ c = '\ufeff' := by
  simp [isFiller]

namespace Reading

variable (last : Location)

/-- What a reader makes of a text that starts at a place. -/
def lex (last : Location) (r : Reading) (place : Location) (text : List Char) : List Lexeme :=
  r.run last (Atom.chars place text)

/-- What a reader makes of a text after a step. -/
def goOn (last : Location) (next : Reading × List Lexeme) (place : Location) (text : List Char) :
    List Lexeme :=
  next.2 ++ next.1.lex last place text

theorem lex_nil (r : Reading) (place : Location) : r.lex last place [] = r.finish last := rfl

theorem lex_cons (r : Reading) (place : Location) (c : Char) (text : List Char) :
    r.lex last place (c :: text) =
      goOn last (r.step (.char place c)) (place.advance c) text := rfl

-- What the first character of a text comes to, for each reading.
section FirstCharacter

variable (begin place : Location) (pieces : List Piece) (e : Escape) (chars : List Char) (c : Char)
  (text : List Char)

theorem lex_between_cons :
    between.lex last place (c :: text) = goOn last (start place c) (place.advance c) text :=
  lex_cons last between place c text

theorem lex_slash_cons :
    (slash begin).lex last place (c :: text) =
      goOn last (if c = '/' then (.lineComment, []) else if c = '*' then (.blockComment begin, [])
        else complete ⟨begin, .stray '/'⟩ (.char place c)) (place.advance c) text :=
  lex_cons last (slash begin) place c text

theorem lex_lineComment_cons :
    lineComment.lex last place (c :: text) =
      goOn last (if c = '\n' then start place c else (.lineComment, [])) (place.advance c) text :=
  lex_cons last lineComment place c text

theorem lex_blockComment_cons :
    (blockComment begin).lex last place (c :: text) =
      (if c = '*' then blockStar begin else blockComment begin).lex last (place.advance c) text :=
  lex_cons last (blockComment begin) place c text

theorem lex_blockStar_cons :
    (blockStar begin).lex last place (c :: text) =
      (if c = '/' then between else if c = '*' then blockStar begin
        else blockComment begin).lex last (place.advance c) text :=
  lex_cons last (blockStar begin) place c text

theorem lex_text_cons :
    (Reading.text begin pieces).lex last place (c :: text) =
      goOn last (inText begin pieces (.char place c)) (place.advance c) text :=
  lex_cons last (Reading.text begin pieces) place c text

theorem lex_escape_cons :
    (escape begin pieces).lex last place (c :: text) =
      goOn last (inEscape begin pieces (.char place c)) (place.advance c) text :=
  lex_cons last (escape begin pieces) place c text

theorem lex_noDigits_cons :
    (noDigits e).lex last place (c :: text) =
      goOn last (digit e place [] c) (place.advance c) text :=
  lex_cons last (noDigits e) place c text

theorem lex_digits_cons :
    (digits e begin chars).lex last place (c :: text) =
      goOn last (digit e begin chars c) (place.advance c) text :=
  lex_cons last (digits e begin chars) place c text

theorem lex_pairBackslash_cons :
    (pairBackslash e).lex last place (c :: text) =
      goOn last (if c = '\\' then (.pairLetter e, []) else badEscape e e.letter)
        (place.advance c) text :=
  lex_cons last (pairBackslash e) place c text

theorem lex_pairLetter_cons :
    (pairLetter e).lex last place (c :: text) =
      goOn last (if c = 'u' then (.noDigits e, []) else badEscape e e.letter)
        (place.advance c) text :=
  lex_cons last (pairLetter e) place c text

end FirstCharacter

theorem lex_stopped (place : Location) (text : List Char) :
    stopped.lex last place text = [] := by
  induction text generalizing place with
  | nil => rfl
  | cons c text ih => exact ih (place.advance c)

/-! ## Trivia -/

theorem lex_filler {c : Char} (h : isFiller c = true) (place : Location) (text : List Char) :
    between.lex last place (c :: text) = between.lex last (place.advance c) text := by
  rw [lex_between_cons, start, if_pos h]
  rfl

theorem lex_lineComment (place : Location) (text : List Char) :
    ∃ q, lineComment.lex last place text = between.lex last q (text.dropWhile (· != '\n')) := by
  induction text generalizing place with
  | nil => exact ⟨place, rfl⟩
  | cons c text ih =>
      by_cases hc : c = '\n'
      · subst hc
        exact ⟨place, rfl⟩
      · obtain ⟨q, hq⟩ := ih (place.advance c)
        refine ⟨q, ?_⟩
        rw [lex_lineComment_cons, if_neg hc, List.dropWhile_cons_of_pos (by simpa using hc)]
        exact hq

/-- Where no slash comes, the asterisk before it has no meaning. -/
theorem lex_blockStar {text : List Char} (h : text.head? ≠ some '/') (begin place : Location) :
    (blockStar begin).lex last place text = (blockComment begin).lex last place text := by
  cases text with
  | nil => rfl
  | cons c text =>
      have hc : c ≠ '/' := fun hc => h (congrArg some hc)
      rw [lex_blockStar_cons, if_neg hc, lex_blockComment_cons]

theorem lex_blockComment_closed {body : List Char} (h : ¬ ['*', '/'] <:+: body)
    (begin place : Location) (text : List Char) :
    ∃ q, (blockComment begin).lex last place (body ++ '*' :: '/' :: text) =
      between.lex last q text := by
  induction body generalizing place with
  | nil => exact ⟨_, rfl⟩
  | cons c body ih =>
      rw [List.infix_cons_iff, not_or] at h
      obtain ⟨q, hq⟩ := ih h.2 (place.advance c)
      refine ⟨q, ?_⟩
      rw [List.cons_append, lex_blockComment_cons]
      by_cases hc : c = '*'
      · subst hc
        have hhead : (body ++ '*' :: '/' :: text).head? ≠ some '/' := by
          cases body with
          | nil => simp
          | cons d body =>
              intro hd
              cases hd
              exact h.1 ⟨body, rfl⟩
        rw [if_pos rfl]
        exact (lex_blockStar last hhead begin _).trans hq
      · rw [if_neg hc]
        exact hq

theorem lex_blockComment_cases (begin place : Location) (text : List Char) :
    (∃ body rest, text = body ++ '*' :: '/' :: rest ∧ ¬ ['*', '/'] <:+: body) ∨
      (blockComment begin).lex last place text = [⟨begin, .openComment⟩] := by
  induction text generalizing place with
  | nil => exact Or.inr rfl
  | cons c text ih =>
      by_cases hclose : c = '*' ∧ text.head? = some '/'
      · obtain ⟨rfl, hslash⟩ := hclose
        cases text with
        | nil => cases hslash
        | cons d rest =>
            cases hslash
            exact Or.inl ⟨[], rest, rfl, by simp⟩
      · have hstep : (blockComment begin).lex last place (c :: text) =
            (blockComment begin).lex last (place.advance c) text := by
          rw [lex_blockComment_cons]
          by_cases hc : c = '*'
          · rw [if_pos hc]
            exact lex_blockStar last (fun hslash => hclose ⟨hc, hslash⟩) begin _
          · rw [if_neg hc]
        rcases ih (place.advance c) with ⟨body, rest, rfl, hbody⟩ | hopen
        · refine Or.inl ⟨c :: body, rest, rfl, ?_⟩
          rw [List.infix_cons_iff, not_or]
          refine ⟨?_, hbody⟩
          rintro ⟨tail, htail⟩
          cases body with
          | nil => cases htail
          | cons d body =>
              cases htail
              exact hclose ⟨rfl, rfl⟩
        · exact Or.inr (hstep.trans hopen)

/-- Trivia are passed over. -/
theorem lex_trivia {text rest : List Char} (h : Trivia text rest) (place : Location) :
    ∃ q, between.lex last place text = between.lex last q rest := by
  induction h generalizing place with
  | none text => exact ⟨place, rfl⟩
  | filler hc later ih =>
      rw [lex_filler last (isFiller_iff.mpr hc)]
      exact ih _
  | @line body text rest hbody hend later ih =>
      obtain ⟨q, hq⟩ := lex_lineComment last ((place.advance '/').advance '/') (body ++ text)
      have hdrop : (body ++ text).dropWhile (· != '\n') = text := by
        rw [List.dropWhile_append_of_pos]
        · rcases hend with rfl | ⟨next, rfl⟩ <;> rfl
        · intro c hc
          have hne : c ≠ '\n' := by
            rintro rfl
            exact hbody hc
          simpa using hne
      rw [hdrop] at hq
      obtain ⟨q', hq'⟩ := ih q
      exact ⟨q', hq.trans hq'⟩
  | @block body text rest hbody later ih =>
      obtain ⟨q, hq⟩ :=
        lex_blockComment_closed last hbody place ((place.advance '/').advance '*') text
      obtain ⟨q', hq'⟩ := ih q
      exact ⟨q', hq.trans hq'⟩

/-! ## Maximal runs -/

/-- A run of characters ends where the first other character stands. -/
theorem lex_run (r : List Char → Reading) (lexeme : List Char → Lexeme) {good : Char → Bool}
    (hgood : ∀ chars place c, good c = true → (r chars).step (.char place c) = (r (c :: chars), []))
    (hother : ∀ chars place c, good c = false →
      (r chars).step (.char place c) = complete (lexeme chars.reverse) (.char place c))
    (hend : ∀ chars, (r chars).finish last = [lexeme chars.reverse])
    (chars : List Char) (place : Location) (text : List Char) :
    ∃ q, (r chars).lex last place text =
      lexeme (chars.reverse ++ text.takeWhile good) ::
        between.lex last q (text.dropWhile good) := by
  induction text generalizing chars place with
  | nil => exact ⟨place, by rw [lex_nil, hend, List.takeWhile_nil, List.append_nil]; rfl⟩
  | cons c text ih =>
      cases hc : good c with
      | true =>
          obtain ⟨q, hq⟩ := ih (c :: chars) (place.advance c)
          refine ⟨q, ?_⟩
          rw [lex_cons, hgood chars place c hc, List.takeWhile_cons_of_pos hc,
            List.dropWhile_cons_of_pos hc]
          rw [List.reverse_cons, List.append_assoc] at hq
          exact hq
      | false =>
          refine ⟨place, ?_⟩
          have hc' : ¬ good c = true := by simp [hc]
          rw [lex_cons, hother chars place c hc, List.takeWhile_cons_of_neg hc',
            List.dropWhile_cons_of_neg hc', List.append_nil]
          rfl

theorem lex_number (begin : Location) (chars : List Char) (place : Location) (text : List Char) :
    ∃ q, (number begin chars).lex last place text =
      ⟨begin, .number (chars.reverse ++ text.takeWhile isNumberChar)⟩ ::
        between.lex last q (text.dropWhile isNumberChar) :=
  lex_run last (number begin) (fun cs => ⟨begin, .number cs⟩) (fun _ _ _ hc => if_pos hc)
    (fun _ _ _ hc => if_neg (by simp [hc])) (fun _ => rfl) chars place text

theorem lex_word (begin : Location) (chars : List Char) (place : Location) (text : List Char) :
    ∃ q, (word begin chars).lex last place text =
      ⟨begin, .word (chars.reverse ++ text.takeWhile isWordChar)⟩ ::
        between.lex last q (text.dropWhile isWordChar) :=
  lex_run last (word begin) (fun cs => ⟨begin, .word cs⟩) (fun _ _ _ hc => if_pos hc)
    (fun _ _ _ hc => if_neg (by simp [hc])) (fun _ => rfl) chars place text

/-! ## Strings -/

/-- Whether reading ends in a string that breaks off. -/
def Broken (lexemes : List Lexeme) : Prop :=
  ∃ begin pieces place fault, lexemes = [⟨begin, .brokenText pieces place fault⟩]

theorem broken_breakOff (begin : Location) (pieces : List Piece) (place : Location) (fault : Fault)
    (next : Location) (text : List Char) :
    Broken (goOn last (breakOff begin pieces place fault) next text) :=
  ⟨begin, pieces.reverse, place, fault, congrArg _ (lex_stopped last next text)⟩

theorem isSome_of_hex4? {a b c d : Char} {n : Nat} (h : hex4? a b c d = some n) :
    (hexDigit? a).isSome ∧ (hexDigit? b).isSome ∧ (hexDigit? c).isSome ∧ (hexDigit? d).isSome := by
  simp only [hex4?, Option.bind_eq_bind, Option.bind_eq_some_iff] at h
  obtain ⟨_, ha, _, hb, _, hc, _, hd, -⟩ := h
  simp [ha, hb, hc, hd]

theorem lex_noDigits {a b c d : Char} {n : Nat} (h : hex4? a b c d = some n) (e : Escape)
    (place : Location) (text : List Char) :
    ∃ q, (noDigits e).lex last place (a :: b :: c :: d :: text) =
      goOn last (escaped e n) q text := by
  obtain ⟨ha, hb, hc, -⟩ := isSome_of_hex4? h
  refine ⟨(((place.advance a).advance b).advance c).advance d, ?_⟩
  have hlast : digit e place [c, b, a] d = escaped e n := by simp only [digit, h]
  rw [← hlast]
  simp only [lex_noDigits_cons, lex_digits_cons, digit, if_pos ha, if_pos hb, if_pos hc, goOn,
    List.nil_append]

/-- The number that the digits of an escape denote, once there are four. -/
def hexCode? : List Char → Option Nat
  | [a, b, c, d] => hex4? a b c d
  | _ => none

theorem lex_digits_cases (e : Escape) (begin : Location) {chars : List Char}
    (hlength : chars.length ≤ 3) (place : Location) (text : List Char) :
    (∃ more rest n, text = more ++ rest ∧ hexCode? (chars.reverse ++ more) = some n) ∨
      Broken ((digits e begin chars).lex last place text) := by
  induction text generalizing chars place with
  | nil => exact Or.inr ⟨_, _, _, _, rfl⟩
  | cons c text ih =>
      by_cases hfull : chars.length = 3
      · obtain ⟨c₃, c₂, c₁, rfl⟩ : ∃ c₃ c₂ c₁, chars = [c₃, c₂, c₁] := by
          match chars, hfull with
          | [c₃, c₂, c₁], _ => exact ⟨c₃, c₂, c₁, rfl⟩
        cases hcode : hex4? c₁ c₂ c₃ c with
        | some n => exact Or.inl ⟨[c], text, n, rfl, hcode⟩
        | none =>
            refine Or.inr ?_
            rw [lex_digits_cons, digit, hcode]
            exact broken_breakOff ..
      · have hdigit : digit e begin chars c =
            if (hexDigit? c).isSome then (.digits e begin (c :: chars), [])
            else badEscape e begin := by
          rw [digit.eq_def]
          split
          · exact absurd rfl hfull
          · rfl
        rw [lex_digits_cons, hdigit]
        split
        · have hmore : (c :: chars).length ≤ 3 := by
            rw [List.length_cons]
            omega
          rcases ih hmore (place.advance c) with ⟨more, rest, n, rfl, hcode⟩ | hbroken
          · rw [List.reverse_cons, List.append_assoc] at hcode
            exact Or.inl ⟨c :: more, rest, n, rfl, hcode⟩
          · exact Or.inr hbroken
        · exact Or.inr (broken_breakOff ..)

theorem lex_noDigits_cases (e : Escape) (place : Location) (text : List Char) :
    (∃ a b c d n rest, text = a :: b :: c :: d :: rest ∧ hex4? a b c d = some n) ∨
      Broken ((noDigits e).lex last place text) := by
  cases text with
  | nil => exact Or.inr ⟨_, _, _, _, rfl⟩
  | cons a text =>
      rw [lex_noDigits_cons, digit]
      · split
        · have hlength : [a].length ≤ 3 := by simp
          rcases lex_digits_cases last e place hlength (place.advance a) text with
            ⟨more, rest, n, rfl, hcode⟩ | hbroken
          · match more, hcode with
            | [b, c, d], hcode => exact Or.inl ⟨a, b, c, d, n, rest, rfl, hcode⟩
          · exact Or.inr hbroken
        · exact Or.inr (broken_breakOff ..)
      · exact fun _ _ _ h => nomatch h

theorem lex_text_backslash (begin : Location) (pieces : List Piece) (place : Location)
    (text : List Char) :
    (Reading.text begin pieces).lex last place ('\\' :: text) =
      (escape begin pieces).lex last (place.advance '\\') text := by
  rw [lex_text_cons, inText, if_neg (by decide), if_pos rfl]
  rfl

theorem ne_newline {c : Char} (h : 0x20 ≤ c.toNat) : c ≠ '\n' := by
  rintro rfl
  exact absurd h (by decide)

theorem lex_escape_u (begin : Location) (pieces : List Piece) (place : Location)
    (text : List Char) :
    (escape begin pieces).lex last place ('u' :: text) =
      (noDigits ⟨begin, pieces, place, none⟩).lex last (place.advance 'u') text := by
  rw [lex_escape_cons, inEscape, if_pos rfl]
  rfl

theorem lex_escape_simple {e c : Char} (h : simpleEscape? e = some c) (begin : Location)
    (pieces : List Piece) (place : Location) (text : List Char) :
    (escape begin pieces).lex last place (e :: text) =
      (Reading.text begin (.char c :: pieces)).lex last (place.advance e) text := by
  have hu : e ≠ 'u' := by
    rintro rfl
    cases h
  rw [lex_escape_cons, inEscape, if_neg hu, h]
  rfl

theorem lex_pairBackslash (e : Escape) (place : Location) (text : List Char) :
    (pairBackslash e).lex last place ('\\' :: 'u' :: text) =
      (noDigits e).lex last ((place.advance '\\').advance 'u') text := by
  rw [lex_pairBackslash_cons, if_pos rfl]
  show (pairLetter e).lex last (place.advance '\\') ('u' :: text) = _
  rw [lex_pairLetter_cons, if_pos rfl]
  rfl

theorem lex_pairBackslash_cases (e : Escape) (place : Location) (text : List Char) :
    (∃ a b c d n rest, text = '\\' :: 'u' :: a :: b :: c :: d :: rest ∧ hex4? a b c d = some n) ∨
      Broken ((pairBackslash e).lex last place text) := by
  match text with
  | [] => exact Or.inr ⟨_, _, _, _, rfl⟩
  | b :: text =>
      by_cases hb : b = '\\'
      · subst hb
        match text with
        | [] => exact Or.inr ⟨_, _, _, _, rfl⟩
        | u :: text =>
            by_cases hu : u = 'u'
            · subst hu
              rw [lex_pairBackslash]
              rcases lex_noDigits_cases last e ((place.advance '\\').advance 'u') text with
                ⟨a, b, c, d, n, rest, rfl, hcode⟩ | hbroken
              · exact Or.inl ⟨a, b, c, d, n, rest, rfl, hcode⟩
              · exact Or.inr hbroken
            · refine Or.inr ?_
              rw [lex_pairBackslash_cons, if_pos rfl]
              show Broken ((pairLetter e).lex last (place.advance '\\') (u :: text))
              rw [lex_pairLetter_cons, if_neg hu]
              exact broken_breakOff ..
      · refine Or.inr ?_
        rw [lex_pairBackslash_cons, if_neg hb]
        exact broken_breakOff ..

section Escaped

variable (begin letter place : Location) (pieces : List Piece) (text : List Char) {n m : Nat}

theorem goOn_code (hhigh : isHighSurrogate n = false) (hlow : isLowSurrogate n = false) :
    goOn last (escaped ⟨begin, pieces, letter, none⟩ n) place text =
      (Reading.text begin (.char (Char.ofNat n) :: pieces)).lex last place text := by
  rw [escaped]
  simp only [hhigh, hlow, Bool.false_eq_true, if_false]
  rfl

theorem goOn_high (hhigh : isHighSurrogate n = true) :
    goOn last (escaped ⟨begin, pieces, letter, none⟩ n) place text =
      (pairBackslash ⟨begin, pieces, letter, some n⟩).lex last place text := by
  rw [escaped]
  simp only [hhigh, if_true]
  rfl

theorem goOn_pair (hlow : isLowSurrogate m = true) :
    goOn last (escaped ⟨begin, pieces, letter, some n⟩ m) place text =
      (Reading.text begin (.char (pairChar n m) :: pieces)).lex last place text := by
  rw [escaped]
  simp only [hlow, if_true]
  rfl

theorem broken_escaped (h : isHighSurrogate n = false ∧ isLowSurrogate n = true) :
    Broken (goOn last (escaped ⟨begin, pieces, letter, none⟩ n) place text) := by
  rw [escaped]
  simp only [h, Bool.false_eq_true, if_false, if_true]
  exact broken_breakOff ..

theorem broken_pair (hlow : isLowSurrogate m = false) :
    Broken (goOn last (escaped ⟨begin, pieces, letter, some n⟩ m) place text) := by
  rw [escaped]
  simp only [hlow, Bool.false_eq_true, if_false]
  exact broken_breakOff ..

end Escaped

/-- A string of the grammar is read as the characters it denotes. -/
theorem lex_text {text chars rest : List Char} (h : Inside text chars rest) (begin : Location)
    (pieces : List Piece) (place : Location) :
    ∃ q, (Reading.text begin pieces).lex last place text =
      ⟨begin, .text (pieces.reverse ++ chars.map .char)⟩ :: between.lex last q rest := by
  -- A character goes to the pieces, where the rest of the string finds it.
  have hlater {c : Char} {text chars rest : List Char} {place : Location}
      (ih : ∀ pieces place, ∃ q, (Reading.text begin pieces).lex last place text =
        ⟨begin, .text (pieces.reverse ++ chars.map .char)⟩ :: between.lex last q rest)
      (pieces : List Piece) :
      ∃ q, (Reading.text begin (.char c :: pieces)).lex last place text =
        ⟨begin, .text (pieces.reverse ++ (c :: chars).map .char)⟩ :: between.lex last q rest := by
    obtain ⟨q, hq⟩ := ih (.char c :: pieces) place
    rw [List.reverse_cons, List.append_assoc] at hq
    exact ⟨q, hq⟩
  induction h generalizing pieces place with
  | close rest =>
      refine ⟨place.advance '"', ?_⟩
      rw [lex_text_cons, inText, if_pos rfl, List.map_nil, List.append_nil]
      rfl
  | plain hquote hbackslash hcontrol later ih =>
      have hnewline := ne_newline hcontrol
      rw [lex_text_cons, inText, if_neg hquote, if_neg hbackslash, if_neg hnewline,
        if_neg (Nat.not_lt.mpr hcontrol)]
      exact hlater ih pieces
  | escape hescape later ih =>
      rw [lex_text_backslash, lex_escape_simple last (Grammar.mem_escapes_iff.mp hescape)]
      exact hlater ih pieces
  | code hcode hscalar later ih =>
      have hcode := Grammar.code_iff.mp hcode
      obtain ⟨hhigh, hlow⟩ := Grammar.scalar_iff.mp hscalar
      rw [lex_text_backslash, lex_escape_u]
      obtain ⟨q, hq⟩ := lex_noDigits last hcode ⟨begin, pieces, place.advance '\\', none⟩
        ((place.advance '\\').advance 'u') _
      rw [hq, goOn_code last _ _ _ _ _ hhigh hlow]
      exact hlater ih pieces
  | @pair a b c d a' b' c' d' high low text chars rest hcode hhigh hcode' hlow later ih =>
      have hcode := Grammar.code_iff.mp hcode
      have hcode' := Grammar.code_iff.mp hcode'
      have hhigh := Grammar.isHighSurrogate_add hhigh
      have hlow := Grammar.isLowSurrogate_add hlow
      rw [← Grammar.pairChar_add, lex_text_backslash, lex_escape_u]
      obtain ⟨q, hq⟩ := lex_noDigits last hcode ⟨begin, pieces, place.advance '\\', none⟩
        ((place.advance '\\').advance 'u') ('\\' :: 'u' :: a' :: b' :: c' :: d' :: text)
      obtain ⟨q', hq'⟩ :=
        lex_noDigits last hcode' ⟨begin, pieces, place.advance '\\', some (0xd800 + high)⟩
        ((q.advance '\\').advance 'u') text
      rw [hq, goOn_high last _ _ _ _ _ hhigh, lex_pairBackslash, hq', goOn_pair last _ _ _ _ _ hlow]
      exact hlater ih pieces

/-- What comes of an escape of four digits: a string that breaks off, or one that goes on. -/
theorem lex_escapeU_cases (begin : Location) (pieces : List Piece) (letter place : Location)
    (text : List Char) :
    (∃ c q rest, rest.length < text.length ∧
      (∀ {chars behind : List Char}, Inside rest chars behind →
        Inside ('\\' :: 'u' :: text) (c :: chars) behind) ∧
      (noDigits ⟨begin, pieces, letter, none⟩).lex last place text =
        (Reading.text begin (.char c :: pieces)).lex last q rest) ∨
      Broken ((noDigits ⟨begin, pieces, letter, none⟩).lex last place text) := by
  rcases lex_noDigits_cases last ⟨begin, pieces, letter, none⟩ place text with
    ⟨a, b, c, d, n, rest, rfl, hcode⟩ | hbroken
  · obtain ⟨q, hq⟩ := lex_noDigits last hcode ⟨begin, pieces, letter, none⟩ place rest
    rw [hq]
    cases hhigh : isHighSurrogate n with
    | false =>
        cases hlow : isLowSurrogate n with
        | false =>
            refine Or.inl ⟨Char.ofNat n, q, rest, ?_, .code (Grammar.code_iff.mpr hcode)
              (Grammar.scalar_iff.mpr ⟨hhigh, hlow⟩),
              goOn_code last _ _ _ _ _ hhigh hlow⟩
            simp only [List.length_cons]
            omega
        | true => exact Or.inr (broken_escaped last _ _ _ _ _ ⟨hhigh, hlow⟩)
    | true =>
        rw [goOn_high last _ _ _ _ _ hhigh]
        rcases lex_pairBackslash_cases last ⟨begin, pieces, letter, some n⟩ q rest with
          ⟨a', b', c', d', m, rest, rfl, hcode'⟩ | hbroken
        · obtain ⟨q', hq'⟩ := lex_noDigits last hcode' ⟨begin, pieces, letter, some n⟩
            ((q.advance '\\').advance 'u') rest
          rw [lex_pairBackslash, hq']
          cases hlow : isLowSurrogate m with
          | true =>
              refine Or.inl ⟨pairChar n m, q', rest, ?_, .of_surrogates hcode hhigh hcode' hlow,
                goOn_pair last _ _ _ _ _ hlow⟩
              simp only [List.length_cons]
              omega
          | false => exact Or.inr (broken_pair last _ _ _ _ _ hlow)
        · exact Or.inr hbroken
  · exact Or.inr hbroken

theorem lex_escape_cases (begin : Location) (pieces : List Piece) (place : Location)
    (text : List Char) :
    (∃ c q rest, rest.length < text.length ∧
      (∀ {chars behind : List Char}, Inside rest chars behind →
        Inside ('\\' :: text) (c :: chars) behind) ∧
      (Reading.escape begin pieces).lex last place text =
        (Reading.text begin (.char c :: pieces)).lex last q rest) ∨
      Broken ((Reading.escape begin pieces).lex last place text) := by
  cases text with
  | nil => exact Or.inr ⟨_, _, _, _, rfl⟩
  | cons e text =>
      by_cases hu : e = 'u'
      · subst hu
        rw [lex_escape_u]
        rcases lex_escapeU_cases last begin pieces place (place.advance 'u') text with
          ⟨c, q, rest, hshorter, hinside, hq⟩ | hbroken
        · exact Or.inl ⟨c, q, rest, Nat.lt_succ_of_lt hshorter, hinside, hq⟩
        · exact Or.inr hbroken
      · cases hescape : simpleEscape? e with
        | some c =>
            exact Or.inl ⟨c, place.advance e, text, Nat.lt_succ_self _,
              .escape (Grammar.mem_escapes_iff.mpr hescape),
              lex_escape_simple last hescape begin pieces place text⟩
        | none =>
            refine Or.inr ?_
            rw [lex_escape_cons, inEscape, if_neg hu, hescape]
            exact broken_breakOff ..

/-- What is read in a string is a string of the grammar, or it breaks off. -/
theorem lex_text_cases (begin : Location) (pieces : List Piece) (place : Location)
    (text : List Char) :
    (∃ chars rest, Inside text chars rest) ∨
      Broken ((Reading.text begin pieces).lex last place text) := by
  induction hlength : text.length using Nat.strongRecOn generalizing pieces place text with
  | ind length ih =>
      subst hlength
      cases text with
      | nil => exact Or.inr ⟨_, _, _, _, rfl⟩
      | cons c text =>
          by_cases hquote : c = '"'
          · subst hquote
            exact Or.inl ⟨[], text, .close text⟩
          by_cases hbackslash : c = '\\'
          · subst hbackslash
            rw [lex_text_backslash]
            rcases lex_escape_cases last begin pieces (place.advance '\\') text with
              ⟨c, q, rest, hshorter, hinside, hq⟩ | hbroken
            · rw [hq]
              rcases ih _ (Nat.lt_succ_of_lt hshorter) (.char c :: pieces) q rest rfl with
                ⟨chars, behind, h⟩ | hbroken
              · exact Or.inl ⟨_, _, hinside h⟩
              · exact Or.inr hbroken
            · exact Or.inr hbroken
          rw [lex_text_cons, inText, if_neg hquote, if_neg hbackslash]
          by_cases hnewline : c = '\n'
          · rw [if_pos hnewline]
            exact Or.inr (broken_breakOff ..)
          rw [if_neg hnewline]
          by_cases hcontrol : c.toNat < 0x20
          · rw [if_pos hcontrol]
            exact Or.inr (broken_breakOff ..)
          · rw [if_neg hcontrol]
            rcases ih _ (Nat.lt_succ_self _) (.char c :: pieces) (place.advance c) text rfl with
              ⟨chars, behind, h⟩ | hbroken
            · exact Or.inl ⟨_, _, .plain hquote hbackslash (Nat.not_lt.mp hcontrol) h⟩
            · exact Or.inr hbroken

end Reading

/-! ## One lexeme after another -/

variable (last : Location)

/-- Whether a lexeme is a fault in itself. -/
def Kind.Faulty : Kind → Prop
  | .brokenText .. | .openComment => True
  | _ => False

/-- What a lexeme takes up of a text, and what it leaves. -/
inductive Spells : Kind → List Char → List Char → Prop
  | mark {c : Char} (h : isMark c = true) (rest : List Char) : Spells (.mark c) (c :: rest) rest
  | text {text chars rest : List Char} (h : Inside text chars rest) :
      Spells (.text (chars.map .char)) ('"' :: text) rest
  | number (c : Char) (text : List Char) :
      Spells (.number (c :: text.takeWhile isNumberChar)) (c :: text) (text.dropWhile isNumberChar)
  | word (c : Char) (text : List Char) :
      Spells (.word (c :: text.takeWhile isWordChar)) (c :: text) (text.dropWhile isWordChar)
  | stray (c : Char) (rest : List Char) : Spells (.stray c) (c :: rest) rest

theorem Spells.ne_directive {k : Kind} {text rest : List Char} (h : Spells k text rest)
    (d : Directive) : k ≠ .directive d := by
  rintro rfl
  cases h

/-- The first lexeme of a text, behind trivia, if there is one. -/
inductive First (last : Location) (text : List Char) : List Lexeme → Prop
  | none (h : Trivia text []) : First last text []
  | some {start rest : List Char} {k : Kind} (h : Trivia text start) (hspells : Spells k start rest)
      (place behind : Location) :
      First last text (⟨place, k⟩ :: Reading.between.lex last behind rest)
  | fault {l : Lexeme} (h : l.kind.Faulty) : First last text [l]

theorem First.of_trivia {text later : List Char} {ls : List Lexeme}
    (h : ∀ {rest : List Char}, Trivia later rest → Trivia text rest)
    (hfirst : First last later ls) :
    First last text ls := by
  cases hfirst with
  | none hnone => exact .none (h hnone)
  | some hsome hspells place behind => exact .some (h hsome) hspells place behind
  | fault hfault => exact .fault hfault

open Reading in
theorem lex_slash (place : Location) (text : List Char) (hline : text.head? ≠ some '/')
    (hblock : text.head? ≠ some '*') :
    (slash place).lex last (place.advance '/') text =
      ⟨place, .stray '/'⟩ :: between.lex last (place.advance '/') text := by
  cases text with
  | nil => rfl
  | cons c text =>
      have hslash : c ≠ '/' := fun hc => hline (congrArg some hc)
      have hstar : c ≠ '*' := fun hc => hblock (congrArg some hc)
      rw [lex_slash_cons, if_neg hslash, if_neg hstar]
      rfl

theorem eq_cons_of_head? {text : List Char} {c : Char} (h : text.head? = some c) :
    ∃ rest, text = c :: rest := by
  cases text with
  | nil => cases h
  | cons d rest =>
      cases h
      exact ⟨rest, rfl⟩

theorem trivia_line {body rest : List Char} (h : Trivia (body.dropWhile (· != '\n')) rest) :
    Trivia ('/' :: '/' :: body) rest := by
  have hbody : '\n' ∉ body.takeWhile (· != '\n') := by
    intro hmem
    simpa using List.mem_takeWhile_imp hmem
  have hend : body.dropWhile (· != '\n') = [] ∨
      ∃ next, body.dropWhile (· != '\n') = '\n' :: next := by
    cases hdrop : body.dropWhile (· != '\n') with
    | nil => exact Or.inl rfl
    | cons c next =>
        have hc := List.head?_dropWhile_not (· != '\n') body
        rw [hdrop] at hc
        have hc : c = '\n' := by simpa using hc
        exact Or.inr ⟨next, by rw [hc]⟩
  have hline := Trivia.line hbody hend h
  rwa [List.takeWhile_append_dropWhile] at hline

open Reading in
/-- Behind a slash there is a comment, or the slash means nothing. -/
theorem first_slash {text : List Char} (place : Location)
    (ih : ∀ (q : Location) (later : List Char), later.length ≤ text.length →
      First last later (between.lex last q later)) :
    First last ('/' :: text) ((slash place).lex last (place.advance '/') text) := by
  by_cases hline : text.head? = some '/'
  · obtain ⟨body, rfl⟩ := eq_cons_of_head? hline
    obtain ⟨q, hq⟩ := lex_lineComment last ((place.advance '/').advance '/') body
    show First last _ (lineComment.lex last ((place.advance '/').advance '/') body)
    rw [hq]
    refine First.of_trivia last (fun h => trivia_line h) (ih q _ ?_)
    exact Nat.le_succ_of_le (List.dropWhile_suffix _).length_le
  by_cases hblock : text.head? = some '*'
  · obtain ⟨body, rfl⟩ := eq_cons_of_head? hblock
    show First last _ ((blockComment place).lex last ((place.advance '/').advance '*') body)
    rcases lex_blockComment_cases last place ((place.advance '/').advance '*') body with
      ⟨body, rest, rfl, hclosed⟩ | hopen
    · obtain ⟨q, hq⟩ := lex_blockComment_closed last hclosed place
        ((place.advance '/').advance '*') rest
      rw [hq]
      refine First.of_trivia last (fun h => .block hclosed h) (ih q rest ?_)
      simp only [List.length_cons, List.length_append]
      omega
    · rw [hopen]
      exact .fault trivial
  · rw [lex_slash last place text hline hblock]
    exact .some (.none _) (.stray '/' text) place (place.advance '/')

open Reading in
/-- Any other character but a blank starts a lexeme. -/
theorem first_start {c : Char} (hfiller : ¬ isFiller c = true) (hslash : c ≠ '/')
    (place : Location) (text : List Char) :
    First last (c :: text) (between.lex last place (c :: text)) := by
  rw [lex_between_cons, start, if_neg hfiller, if_neg hslash]
  by_cases hquote : c = '"'
  · subst hquote
    rw [if_pos rfl]
    show First last ('"' :: text) ((Reading.text place []).lex last (place.advance '"') text)
    rcases lex_text_cases last place [] (place.advance '"') text with
      ⟨chars, rest, h⟩ | ⟨begin, pieces, at_, fault, h⟩
    · obtain ⟨q, hq⟩ := lex_text last h place [] (place.advance '"')
      rw [hq]
      exact .some (.none _) (.text h) place q
    · rw [h]
      exact .fault trivial
  rw [if_neg hquote]
  by_cases hmark : isMark c = true
  · rw [if_pos hmark]
    exact .some (.none _) (.mark hmark text) place (place.advance c)
  rw [if_neg hmark]
  by_cases hnumber : isNumberStart c = true
  · rw [if_pos hnumber]
    obtain ⟨q, hq⟩ := lex_number last place [c] (place.advance c) text
    show First last (c :: text) ((number place [c]).lex last (place.advance c) text)
    rw [hq]
    exact .some (.none _) (.number c text) place q
  rw [if_neg hnumber]
  by_cases hletter : Text.isLetter c = true
  · rw [if_pos hletter]
    obtain ⟨q, hq⟩ := lex_word last place [c] (place.advance c) text
    show First last (c :: text) ((word place [c]).lex last (place.advance c) text)
    rw [hq]
    exact .some (.none _) (.word c text) place q
  · rw [if_neg hletter]
    exact .some (.none _) (.stray c text) place (place.advance c)

open Reading in
/-- Trivia may be followed by trivia, so the induction is on the length of the text. -/
theorem first_lex (place : Location) (text : List Char) :
    First last text (between.lex last place text) := by
  induction hlength : text.length using Nat.strongRecOn generalizing place text with
  | ind length ih =>
      subst hlength
      match text with
      | [] => exact .none (.none [])
      | c :: text =>
          have hlater (q : Location) (later : List Char) (h : later.length ≤ text.length) :
              First last later (between.lex last q later) :=
            ih _ (Nat.lt_succ_of_le h) q later rfl
          by_cases hfiller : isFiller c = true
          · rw [lex_filler last hfiller]
            exact First.of_trivia last (.filler (isFiller_iff.mp hfiller))
              (hlater (place.advance c) text (Nat.le_refl _))
          by_cases hslash : c = '/'
          · subst hslash
            exact first_slash last place hlater
          · exact first_start last hfiller hslash place text

/-! ## The lexemes of the grammar -/

/-- Whether no number and no word goes on in a text. -/
def Delimited (text : List Char) : Prop :=
  ∀ c ∈ text.head?, isNumberChar c = false ∧ isWordChar c = false

theorem delimited_nil : Delimited [] := by simp [Delimited]

theorem delimited_cons {c : Char} (h : isNumberChar c = false ∧ isWordChar c = false)
    (text : List Char) : Delimited (c :: text) := by
  simpa [Delimited] using h

/-- The code points of blanks and of the byte order mark. -/
def fillers : List Nat :=
  [0x9, 0xa, 0xb, 0xc, 0xd, 0x20, 0x85, 0xa0, 0x1680, 0x2000, 0x2001, 0x2002, 0x2003, 0x2004,
    0x2005, 0x2006, 0x2007, 0x2008, 0x2009, 0x200a, 0x2028, 0x2029, 0x202f, 0x205f, 0x3000, 0xfeff]

theorem mem_fillers {c : Char} (h : isFiller c = true) : c.toNat ∈ fillers := by
  rcases isFiller_iff.mp h with hblank | rfl
  · simp only [Text.isBlank, Bool.or_eq_true, Bool.and_eq_true, decide_eq_true_eq,
      beq_iff_eq] at hblank
    simp only [fillers, List.mem_cons, List.not_mem_nil, or_false]
    omega
  · decide

theorem delimits_of_mem_fillers : ∀ n ∈ fillers,
    isNumberChar (Char.ofNat n) = false ∧ isWordChar (Char.ofNat n) = false := by
  decide +kernel

theorem delimits_filler {c : Char} (h : isFiller c = true) :
    isNumberChar c = false ∧ isWordChar c = false := by
  have hdelimits := delimits_of_mem_fillers c.toNat (mem_fillers h)
  rwa [Char.ofNat_toNat] at hdelimits

theorem Delimited.of_trivia {text rest : List Char} (h : Trivia text rest)
    (hrest : Delimited rest) :
    Delimited text := by
  cases h with
  | none => exact hrest
  | filler hc later => exact delimited_cons (delimits_filler (isFiller_iff.mpr hc)) _
  | line hbody hend later => exact delimited_cons (by decide) _
  | block hbody later => exact delimited_cons (by decide) _

theorem isMark_iff {c : Char} : isMark c = true ↔
    c = '\x7b' ∨ c = '\x7d' ∨ c = '[' ∨ c = ']' ∨ c = ',' ∨ c = ':' := by
  simp [isMark, or_assoc]

open Reading in
theorem lex_mark {c : Char} (h : isMark c = true) (place : Location) (text : List Char) :
    between.lex last place (c :: text) =
      ⟨place, .mark c⟩ :: between.lex last (place.advance c) text := by
  have hstart : start place c = (.between, [⟨place, .mark c⟩]) := by
    rcases isMark_iff.mp h with rfl | rfl | rfl | rfl | rfl | rfl <;> rfl
  rw [lex_between_cons, hstart]
  rfl

open Reading in
theorem lex_string {text chars rest : List Char} (h : Inside text chars rest) (place : Location) :
    ∃ q, between.lex last place ('"' :: text) =
      ⟨place, .text (chars.map .char)⟩ :: between.lex last q rest :=
  lex_text last h place [] (place.advance '"')

theorem takeWhile_append_of_delimited {good : Char → Bool} {cs rest : List Char}
    (h : ∀ c ∈ cs, good c = true) (hrest : ∀ c ∈ rest.head?, good c = false) :
    (cs ++ rest).takeWhile good = cs ∧ (cs ++ rest).dropWhile good = rest := by
  have hhead : rest.takeWhile good = [] ∧ rest.dropWhile good = rest := by
    cases rest with
    | nil => exact ⟨rfl, rfl⟩
    | cons c rest =>
        have hc : ¬ good c = true := by simp [hrest c rfl]
        exact ⟨List.takeWhile_cons_of_neg hc, List.dropWhile_cons_of_neg hc⟩
  rw [List.takeWhile_append_of_pos h, List.dropWhile_append_of_pos h, hhead.1, hhead.2,
    List.append_nil]
  exact ⟨rfl, rfl⟩

theorem isNumberChar_of_isNumberStart {c : Char} (h : isNumberStart c = true) :
    isNumberChar c = true := by
  simp only [isNumberStart, Bool.or_eq_true, beq_iff_eq] at h
  rcases h with rfl | hdigit
  · rfl
  · simp [isNumberChar, hdigit]

theorem isFiller_of_isNumberStart {c : Char} (h : isNumberStart c = true) :
    isFiller c = false ∧ c ≠ '/' ∧ c ≠ '"' ∧ isMark c = false := by
  refine ⟨?_, ?_, ?_, ?_⟩
  · rw [← Bool.not_eq_true]
    intro hfiller
    have hchar := isNumberChar_of_isNumberStart h
    rw [(delimits_filler hfiller).1] at hchar
    cases hchar
  · rintro rfl
    cases h
  · rintro rfl
    cases h
  · rw [← Bool.not_eq_true]
    intro hmark
    rcases isMark_iff.mp hmark with rfl | rfl | rfl | rfl | rfl | rfl <;> cases h

open Reading in
/-- A number of the grammar is one lexeme, where something delimits it. -/
theorem lex_numeral {c : Char} {cs rest : List Char} (h : isNumberStart c = true)
    (hcs : ∀ d ∈ cs, isNumberChar d = true) (hrest : Delimited rest) (place : Location) :
    ∃ q, between.lex last place (c :: cs ++ rest) =
      ⟨place, .number (c :: cs)⟩ :: between.lex last q rest := by
  obtain ⟨hfiller, hslash, hquote, hmark⟩ := isFiller_of_isNumberStart h
  have hstart : start place c = (.number place [c], []) := by
    simp [start, hfiller, hslash, hquote, hmark, h]
  obtain ⟨q, hq⟩ := lex_number last place [c] (place.advance c) (cs ++ rest)
  obtain ⟨htake, hdrop⟩ := takeWhile_append_of_delimited hcs fun c hc => (hrest c hc).1
  rw [htake, hdrop] at hq
  refine ⟨q, ?_⟩
  rw [List.cons_append, lex_between_cons, hstart]
  exact hq

open Reading in
theorem lex_keyword {word : List Char} {v : Json} (h : Grammar.Word word v) {rest : List Char}
    (hrest : Delimited rest) (place : Location) :
    ∃ q, between.lex last place (word ++ rest) =
      ⟨place, .word word⟩ :: between.lex last q rest := by
  obtain ⟨c, cs, rfl, hstart, hcs⟩ : ∃ c cs, word = c :: cs ∧
      (∀ place, start place c = (.word place [c], [])) ∧ ∀ d ∈ cs, isWordChar d = true := by
    cases h with
    | null => exact ⟨_, _, rfl, fun _ => rfl, List.all_eq_true.mp rfl⟩
    | true => exact ⟨_, _, rfl, fun _ => rfl, List.all_eq_true.mp rfl⟩
    | false => exact ⟨_, _, rfl, fun _ => rfl, List.all_eq_true.mp rfl⟩
  obtain ⟨q, hq⟩ := lex_word last place [c] (place.advance c) (cs ++ rest)
  obtain ⟨htake, hdrop⟩ := takeWhile_append_of_delimited hcs fun c hc => (hrest c hc).2
  rw [htake, hdrop] at hq
  refine ⟨q, ?_⟩
  rw [List.cons_append, lex_between_cons, hstart]
  exact hq

end Lexeme

end Stencil
