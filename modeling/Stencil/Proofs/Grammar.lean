import Stencil.Json.Reader
import Stencil.Proofs.Overflow
import Stencil.Text.Blank

/-!
# The grammar of templates without directives

A template without directives is JSON with comments, in which a container that is not
empty may end with one extra comma. The grammar of it is written down here: each notion
relates a text to what a beginning of the text denotes and to what is left behind it. The
escapes of strings stand in tables of the grammar's own. The readers have theirs, and the last
section proves them the same. Two notions are shared: which characters are blank, and which
number the parts of a spelling denote.

The grammar does not look ahead. A number, for instance, may end anywhere; that it ends where
its digits end follows from what can come after a value.
-/

namespace Stencil

namespace Grammar

open Json.Number (Parts)

/-- Blanks, byte order marks and comments. -/
inductive Trivia : List Char → List Char → Prop
  | none (text : List Char) : Trivia text text
  | filler {c : Char} {text rest : List Char} (h : Text.isBlank c = true ∨ c = '\ufeff')
      (later : Trivia text rest) : Trivia (c :: text) rest
  /-- A comment up to the end of its line. -/
  | line {body text rest : List Char} (hbody : '\n' ∉ body)
      (hend : text = [] ∨ ∃ next, text = '\n' :: next) (later : Trivia text rest) :
      Trivia ('/' :: '/' :: (body ++ text)) rest
  /-- A comment up to its first closing. -/
  | block {body text rest : List Char} (hbody : ¬ ['*', '/'] <:+: body)
      (later : Trivia text rest) : Trivia ('/' :: '*' :: (body ++ '*' :: '/' :: text)) rest

section Strings

/-- The characters that may stand behind a backslash, `u` apart, each with what it stands for. -/
def escapes : List (Char × Char) :=
  [('"', '"'), ('\\', '\\'), ('/', '/'), ('b', '\x08'), ('f', '\x0c'), ('n', '\n'), ('r', '\r'),
    ('t', '\t')]

/-- The hexadecimal digits with their numbers. -/
def hexDigits : List (Char × Nat) := "0123456789abcdef".toList.zipIdx ++ "ABCDEF".toList.zipIdx 10

/-- The number that four hexadecimal digits denote. -/
def Code (a b c d : Char) (n : Nat) : Prop :=
  ∃ i j k l, (a, i) ∈ hexDigits ∧ (b, j) ∈ hexDigits ∧ (c, k) ∈ hexDigits ∧ (d, l) ∈ hexDigits ∧
    n = i * 16 ^ 3 + j * 16 ^ 2 + k * 16 + l

/-- The inside of a string with the closing quote, and the characters it denotes. -/
inductive Inside : List Char → List Char → List Char → Prop
  | close (rest : List Char) : Inside ('"' :: rest) [] rest
  | plain {c : Char} {text chars rest : List Char} (hquote : c ≠ '"') (hbackslash : c ≠ '\\')
      (hcontrol : 0x20 ≤ c.toNat) (later : Inside text chars rest) :
      Inside (c :: text) (c :: chars) rest
  | escape {e c : Char} {text chars rest : List Char} (h : (e, c) ∈ escapes)
      (later : Inside text chars rest) : Inside ('\\' :: e :: text) (c :: chars) rest
  /-- The code of a character, which is not that of a surrogate. -/
  | code {a b c d : Char} {n : Nat} {text chars rest : List Char} (h : Code a b c d n)
      (hscalar : n < 0xd800 ∨ 0xe000 ≤ n) (later : Inside text chars rest) :
      Inside ('\\' :: 'u' :: a :: b :: c :: d :: text) (Char.ofNat n :: chars) rest
  /-- Two surrogates, a high one and a low one, for one character. -/
  | pair {a b c d a' b' c' d' : Char} {high low : Nat} {text chars rest : List Char}
      (h : Code a b c d (0xd800 + high)) (hhigh : high < 0x400)
      (h' : Code a' b' c' d' (0xdc00 + low)) (hlow : low < 0x400)
      (later : Inside text chars rest) :
      Inside ('\\' :: 'u' :: a :: b :: c :: d :: '\\' :: 'u' :: a' :: b' :: c' :: d' :: text)
        (Char.ofNat (0x10000 + high * 0x400 + low) :: chars) rest

end Strings

section Numbers

/-- At least one decimal digit. -/
inductive Digits : List Nat → List Char → Prop
  | one {c : Char} (h : c.isDigit = true) : Digits [c.toNat - '0'.toNat] [c]
  | cons {c : Char} {ds : List Nat} {cs : List Char} (h : c.isDigit = true)
      (later : Digits ds cs) : Digits ((c.toNat - '0'.toNat) :: ds) (c :: cs)

/-- Digits of which the first one is zero only when it is the only one. -/
def Whole (ds : List Nat) (cs : List Char) : Prop :=
  Digits ds cs ∧ (ds.head? = some 0 → ds = [0])

inductive Fraction : List Nat → List Char → Prop
  | none : Fraction [] []
  | some {ds : List Nat} {cs : List Char} (h : Digits ds cs) : Fraction ds ('.' :: cs)

inductive Exponent : Option (Bool × List Nat) → List Char → Prop
  | none : Exponent none []
  | plain {e : Char} {ds : List Nat} {cs : List Char} (he : e = 'e' ∨ e = 'E')
      (h : Digits ds cs) : Exponent (some (false, ds)) (e :: cs)
  | plus {e : Char} {ds : List Nat} {cs : List Char} (he : e = 'e' ∨ e = 'E')
      (h : Digits ds cs) : Exponent (some (false, ds)) (e :: '+' :: cs)
  | minus {e : Char} {ds : List Nat} {cs : List Char} (he : e = 'e' ∨ e = 'E')
      (h : Digits ds cs) : Exponent (some (true, ds)) (e :: '-' :: cs)

/-- The spelling of a number. -/
inductive Number : Parts → List Char → Prop
  | positive {ws fs : List Nat} {e : Option (Bool × List Nat)} {whole fraction exponent : List Char}
      (hwhole : Whole ws whole) (hfraction : Fraction fs fraction)
      (hexponent : Exponent e exponent) :
      Number ⟨false, ws, fs, e⟩ (whole ++ (fraction ++ exponent))
  | negative {ws fs : List Nat} {e : Option (Bool × List Nat)} {whole fraction exponent : List Char}
      (hwhole : Whole ws whole) (hfraction : Fraction fs fraction)
      (hexponent : Exponent e exponent) :
      Number ⟨true, ws, fs, e⟩ ('-' :: (whole ++ (fraction ++ exponent)))

end Numbers

inductive Word : List Char → Json → Prop
  | null : Word ['n', 'u', 'l', 'l'] .null
  | true : Word ['t', 'r', 'u', 'e'] (.bool true)
  | false : Word ['f', 'a', 'l', 's', 'e'] (.bool false)

/-- What a stretch of a text can be. -/
inductive Phrase where
  | value (v : Json)
  /-- A value with trivia around it. -/
  | padded (v : Json)
  /-- What follows the opening bracket of an array or a comma in it. -/
  | items (vs : List Json)
  /-- What follows the opening brace of an object or a comma in it. -/
  | members (ms : List (String × Json))

/-- The phrases. A number must not be too large for a double, and of a repeated key the first
place and the last value count. -/
inductive Derives : Phrase → List Char → List Char → Prop
  | word {v : Json} {word rest : List Char} (h : Word word v) :
      Derives (.value v) (word ++ rest) rest
  | number {p : Parts} {cs rest : List Char} (h : Number p cs) (hfits : ¬ p.Overflows) :
      Derives (.value (.number p.value)) (cs ++ rest) rest
  | text {text chars rest : List Char} (h : Inside text chars rest) :
      Derives (.value (.string (String.ofList chars))) ('"' :: text) rest
  | array {vs : List Json} {text rest : List Char} (h : Derives (.items vs) text rest) :
      Derives (.value (.array vs)) ('[' :: text) rest
  | object {ms : List (String × Json)} {text rest : List Char}
      (h : Derives (.members ms) text rest) :
      Derives (.value (.object (Assoc.ofList ms))) ('\x7b' :: text) rest
  | padded {v : Json} {text start after rest : List Char} (before : Trivia text start)
      (h : Derives (.value v) start after) (behind : Trivia after rest) :
      Derives (.padded v) text rest
  | noItem {text rest : List Char} (h : Trivia text (']' :: rest)) : Derives (.items []) text rest
  | lastItem {v : Json} {text rest : List Char} (h : Derives (.padded v) text (']' :: rest)) :
      Derives (.items [v]) text rest
  | item {v : Json} {vs : List Json} {text next rest : List Char}
      (h : Derives (.padded v) text (',' :: next)) (later : Derives (.items vs) next rest) :
      Derives (.items (v :: vs)) text rest
  | noMember {text rest : List Char} (h : Trivia text ('\x7d' :: rest)) :
      Derives (.members []) text rest
  | lastMember {v : Json} {text quoted key colon next rest : List Char}
      (before : Trivia text ('"' :: quoted)) (hkey : Inside quoted key colon)
      (hcolon : Trivia colon (':' :: next)) (h : Derives (.padded v) next ('\x7d' :: rest)) :
      Derives (.members [(String.ofList key, v)]) text rest
  | member {v : Json} {ms : List (String × Json)} {text quoted key colon next more rest : List Char}
      (before : Trivia text ('"' :: quoted)) (hkey : Inside quoted key colon)
      (hcolon : Trivia colon (':' :: next)) (h : Derives (.padded v) next (',' :: more))
      (later : Derives (.members ms) more rest) :
      Derives (.members ((String.ofList key, v) :: ms)) text rest

/-- A whole text: trivia, which denotes null, or a value and trivia. -/
inductive Document : List Char → Json → Prop
  | trivia {text : List Char} (h : Trivia text []) : Document text .null
  | value {v : Json} {text : List Char} (h : Derives (.padded v) text []) : Document text v

theorem Trivia.length_le {text rest : List Char} (h : Trivia text rest) :
    rest.length ≤ text.length := by
  induction h with
  | none => exact Nat.le_refl _
  | filler hc later ih =>
      rw [List.length_cons]
      omega
  | line hbody hend later ih | block hbody later ih =>
      simp only [List.length_cons, List.length_append]
      omega

theorem Inside.length_lt {text chars rest : List Char} (h : Inside text chars rest) :
    rest.length < text.length := by
  induction h with
  | close rest => exact Nat.lt_succ_self _
  | plain _ _ _ later ih | escape _ later ih | code _ _ later ih | pair _ _ _ _ later ih =>
      simp only [List.length_cons]
      omega

/-! ## The readers' tables -/

section Tables

open Json.Reader

theorem mem_escapes_iff {e c : Char} : (e, c) ∈ escapes ↔ simpleEscape? e = some c := by
  constructor
  · have htable : ∀ entry ∈ escapes, simpleEscape? entry.1 = some entry.2 := by decide
    exact htable (e, c)
  · intro h
    unfold simpleEscape? at h
    split at h <;> cases h <;> decide

/-- What is a digit to the readers stands among the characters of ASCII. -/
theorem toNat_lt_of_hexDigit? {c : Char} {n : Nat} (h : hexDigit? c = some n) : c.toNat < 128 := by
  have hlast (d : Char) (hle : c ≤ d) (hd : d.toNat < 128) : c.toNat < 128 :=
    Nat.lt_of_le_of_lt (Char.le_def.mp hle) hd
  unfold hexDigit? at h
  split at h
  · next hdigit =>
      simp only [Char.isDigit, ge_iff_le, Bool.and_eq_true, decide_eq_true_eq] at hdigit
      exact hlast '9' hdigit.2 (by decide)
  · split at h
    · next hlower => exact hlast 'f' hlower.2 (by decide)
    · split at h
      · next hupper => exact hlast 'F' hupper.2 (by decide)
      · cases h

theorem mem_hexDigits_iff {c : Char} {n : Nat} : (c, n) ∈ hexDigits ↔ hexDigit? c = some n := by
  constructor
  · have htable : ∀ entry ∈ hexDigits, hexDigit? entry.1 = some entry.2 := by decide
    exact htable (c, n)
  · intro h
    have htable : ∀ k < 128, ∀ n ∈ hexDigit? (Char.ofNat k), (Char.ofNat k, n) ∈ hexDigits := by
      decide
    have hc := htable c.toNat (toNat_lt_of_hexDigit? h) n
    rw [Char.ofNat_toNat] at hc
    exact hc h

theorem code_iff {a b c d : Char} {n : Nat} : Code a b c d n ↔ hex4? a b c d = some n := by
  simp only [Code, mem_hexDigits_iff, hex4?, Option.bind_eq_bind, Option.bind_eq_some_iff,
    Option.pure_def, Option.some.injEq]
  constructor
  · rintro ⟨i, j, k, l, ha, hb, hc, hd, rfl⟩
    exact ⟨i, ha, j, hb, k, hc, l, hd, by omega⟩
  · rintro ⟨i, ha, j, hb, k, hc, l, hd, rfl⟩
    exact ⟨i, j, k, l, ha, hb, hc, hd, by omega⟩

theorem scalar_iff {n : Nat} : n < 0xd800 ∨ 0xe000 ≤ n ↔
    isHighSurrogate n = false ∧ isLowSurrogate n = false := by
  simp only [isHighSurrogate, isLowSurrogate, Bool.and_eq_false_iff, decide_eq_false_iff_not]
  omega

theorem isHighSurrogate_add {high : Nat} (h : high < 0x400) :
    isHighSurrogate (0xd800 + high) = true := by
  simp only [isHighSurrogate, Bool.and_eq_true, decide_eq_true_eq]
  omega

theorem isLowSurrogate_add {low : Nat} (h : low < 0x400) :
    isLowSurrogate (0xdc00 + low) = true := by
  simp only [isLowSurrogate, Bool.and_eq_true, decide_eq_true_eq]
  omega

theorem pairChar_add (high low : Nat) :
    pairChar (0xd800 + high) (0xdc00 + low) = Char.ofNat (0x10000 + high * 0x400 + low) := by
  rw [pairChar, Nat.add_sub_cancel_left, Nat.add_sub_cancel_left]

/-- Two surrogates as the readers tell them. -/
theorem Inside.of_surrogates {a b c d a' b' c' d' : Char} {n m : Nat}
    {text chars rest : List Char} (h : hex4? a b c d = some n) (hhigh : isHighSurrogate n = true)
    (h' : hex4? a' b' c' d' = some m) (hlow : isLowSurrogate m = true)
    (later : Inside text chars rest) :
    Inside ('\\' :: 'u' :: a :: b :: c :: d :: '\\' :: 'u' :: a' :: b' :: c' :: d' :: text)
      (pairChar n m :: chars) rest := by
  simp only [isHighSurrogate, Bool.and_eq_true, decide_eq_true_eq] at hhigh
  simp only [isLowSurrogate, Bool.and_eq_true, decide_eq_true_eq] at hlow
  obtain ⟨high, rfl⟩ := Nat.exists_eq_add_of_le hhigh.1
  obtain ⟨low, rfl⟩ := Nat.exists_eq_add_of_le hlow.1
  rw [pairChar_add]
  exact .pair (code_iff.mpr h) (by omega) (code_iff.mpr h') (by omega) later

end Tables

end Grammar

end Stencil
