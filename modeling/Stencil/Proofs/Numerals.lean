import Stencil.Lexeme
import Stencil.Proofs.Grammar

/-!
# Numbers are taken apart by their grammar

Digits are taken from a text as long as there are any, so a part of a number ends where its
digits end, and what may follow it in the grammar is no digit. With that, taking a number
apart and spelling it are inverse to each other, part by part.
-/

namespace Stencil

namespace Grammar

open Json.Number (Parts digits exponentPart)

/-- Whether digits cannot go on in a text. -/
def NoDigit (text : List Char) : Prop := ∀ c ∈ text.head?, c.isDigit = false

theorem noDigit_nil : NoDigit [] := by simp [NoDigit]

theorem noDigit_cons {c : Char} (h : c.isDigit = false) (text : List Char) :
    NoDigit (c :: text) := by
  simpa [NoDigit] using h

theorem Digits.exists_cons {ds : List Nat} {cs : List Char} (h : Digits ds cs) :
    ∃ c tail, cs = c :: tail ∧ c.isDigit = true := by
  cases h with
  | one hc => exact ⟨_, _, rfl, hc⟩
  | cons hc later => exact ⟨_, _, rfl, hc⟩

theorem Digits.ne_nil {ds : List Nat} {cs : List Char} (h : Digits ds cs) : ds ≠ [] := by
  cases h <;> exact List.cons_ne_nil _ _

theorem digits_of_noDigit {text : List Char} (h : NoDigit text) : digits text = ([], text) := by
  cases text with
  | nil => rfl
  | cons c text =>
      have hc : c.isDigit = false := h c rfl
      simp [digits, hc]

theorem digits_append {ds : List Nat} {cs rest : List Char} (h : Digits ds cs)
    (hrest : NoDigit rest) : digits (cs ++ rest) = (ds, rest) := by
  induction h with
  | one hc => simp [digits, hc, digits_of_noDigit hrest]
  | cons hc later ih => simp [digits, hc, ih]

theorem digits_cases (text : List Char) :
    digits text = ([], text) ∨
      ∃ ds cs rest, text = cs ++ rest ∧ Digits ds cs ∧ digits text = (ds, rest) := by
  induction text with
  | nil => exact Or.inl rfl
  | cons c text ih =>
      cases hc : c.isDigit with
      | false => exact Or.inl (by simp [digits, hc])
      | true =>
          refine Or.inr ?_
          rcases ih with hnone | ⟨ds, cs, rest, rfl, hds, hdigits⟩
          · exact ⟨[c.toNat - '0'.toNat], [c], text, rfl, .one hc, by simp [digits, hc, hnone]⟩
          · exact ⟨_, c :: cs, rest, rfl, .cons hc hds, by simp [digits, hc, hdigits]⟩

theorem digits_eq {text rest : List Char} {d : Nat} {ds : List Nat}
    (h : digits text = (d :: ds, rest)) : ∃ cs, text = cs ++ rest ∧ Digits (d :: ds) cs := by
  rcases digits_cases text with hnone | ⟨ds', cs, rest', rfl, hds, hdigits⟩
  · rw [hnone] at h
    cases h
  · rw [hdigits] at h
    cases h
    exact ⟨cs, rfl, hds⟩

theorem exponent_of_exponentPart {cs : List Char} {x : Option (Bool × List Nat)}
    (h : exponentPart cs = some x) : Exponent x cs := by
  cases cs with
  | nil =>
      cases h
      exact .none
  | cons e cs =>
      simp only [exponentPart] at h
      split at h
      · next he =>
          split at h
          · cases h
          · next ds hne hdigits =>
              obtain ⟨d, ds, rfl⟩ := List.exists_cons_of_ne_nil hne
              obtain ⟨unsigned, hcs, hds⟩ := digits_eq hdigits
              rw [List.append_nil] at hcs
              cases h
              revert hcs
              split
              · rintro rfl
                exact .minus he hds
              · rintro rfl
                exact .plus he hds
              · rintro rfl
                exact .plain he hds
          · cases h
      · cases h

theorem exponentPart_of_exponent {x : Option (Bool × List Nat)} {cs : List Char}
    (h : Exponent x cs) : exponentPart cs = some x := by
  have hall {ds : List Nat} {cs : List Char} (h : Digits ds cs) :
      ∃ d tail, ds = d :: tail ∧ digits cs = (d :: tail, []) := by
    obtain ⟨d, tail, rfl⟩ := List.exists_cons_of_ne_nil h.ne_nil
    exact ⟨d, tail, rfl, by simpa using digits_append h noDigit_nil⟩
  cases h with
  | none => rfl
  | plain he h =>
      obtain ⟨d, tail, rfl, hdigits⟩ := hall h
      obtain ⟨c, cs, rfl, hc⟩ := h.exists_cons
      have hminus : c ≠ '-' := by rintro rfl; cases hc
      have hplus : c ≠ '+' := by rintro rfl; cases hc
      simp [exponentPart, he, hminus, hplus, hdigits]
  | plus he h | minus he h =>
      obtain ⟨d, tail, rfl, hdigits⟩ := hall h
      simp [exponentPart, he, hdigits]

theorem Exponent.noDigit {x : Option (Bool × List Nat)} {cs : List Char} (h : Exponent x cs) :
    NoDigit cs := by
  cases h with
  | none => exact noDigit_nil
  | plain he h | plus he h | minus he h =>
      rcases he with rfl | rfl <;> exact noDigit_cons rfl _

/-- The parts of a number whose sign is known. -/
def unsigned? (negative : Bool) (text : List Char) : Option Parts :=
  match digits text with
  | ([], _) => none
  | (0 :: _ :: _, _) => none
  | (whole, '.' :: rest) =>
      match digits rest with
      | ([], _) => none
      | (fraction, rest) => (exponentPart rest).map fun e => ⟨negative, whole, fraction, e⟩
  | (whole, rest) => (exponentPart rest).map fun e => ⟨negative, whole, [], e⟩

theorem unsigned?_of_number {ws fs : List Nat} {e : Option (Bool × List Nat)}
    {whole fraction exponent : List Char} (hwhole : Whole ws whole)
    (hfraction : Fraction fs fraction)
    (hexponent : Exponent e exponent) (negative : Bool) :
    unsigned? negative (whole ++ (fraction ++ exponent)) = some ⟨negative, ws, fs, e⟩ := by
  have hend : NoDigit (fraction ++ exponent) := by
    cases hfraction with
    | none => exact hexponent.noDigit
    | some h => exact noDigit_cons rfl _
  have hwholeDigits := digits_append hwhole.1 hend
  obtain ⟨d, ws, rfl⟩ := List.exists_cons_of_ne_nil hwhole.1.ne_nil
  have hzero : d = 0 → ws = [] := by
    rintro rfl
    cases hwhole.2 rfl
    rfl
  have hpart := exponentPart_of_exponent hexponent
  cases hfraction with
  | none =>
      have hpoint : exponent.head? ≠ some '.' := by
        cases hexponent with
        | none => simp
        | plain he h | plus he h | minus he h => rcases he with rfl | rfl <;> simp
      rw [unsigned?, hwholeDigits]
      split
      · next heq => cases heq
      · next heq =>
          cases heq
          cases hzero rfl
      · next heq =>
          cases heq
          exact absurd rfl hpoint
      · next heq =>
          cases heq
          rw [List.nil_append, hpart]
          rfl
  | some h =>
      have hfractionDigits := digits_append h hexponent.noDigit
      obtain ⟨f, fs, rfl⟩ := List.exists_cons_of_ne_nil h.ne_nil
      rw [unsigned?, hwholeDigits]
      split
      · next heq => cases heq
      · next heq =>
          cases heq
          cases hzero rfl
      · next heq =>
          cases heq
          rw [List.append_eq, hfractionDigits]
          dsimp only
          rw [hpart]
          rfl
      · next hpoint heq =>
          cases heq
          exact absurd rfl (hpoint _)

theorem number_of_unsigned? {text : List Char} {negative : Bool} {p : Parts}
    (h : unsigned? negative text = some p) :
    ∃ ws fs e whole fraction exponent, Whole ws whole ∧ Fraction fs fraction ∧
      Exponent e exponent ∧ text = whole ++ (fraction ++ exponent) ∧ p = ⟨negative, ws, fs, e⟩ := by
  have hwhole {ws : List Nat} {rest : List Char} (hne : ws = [] → False)
      (hzero : ∀ d tail, ws = 0 :: d :: tail → False) (hdigits : digits text = (ws, rest)) :
      ∃ whole, text = whole ++ rest ∧ Whole ws whole := by
    obtain ⟨d, ws, rfl⟩ := List.exists_cons_of_ne_nil hne
    obtain ⟨whole, htext, hds⟩ := digits_eq hdigits
    refine ⟨whole, htext, hds, fun hd => ?_⟩
    cases ws with
    | nil => simpa using hd
    | cons d' tail =>
        cases hd
        exact absurd rfl (hzero d' tail)
  rw [unsigned?] at h
  split at h
  · cases h
  · cases h
  · next ws rest hne hzero hdigits =>
      obtain ⟨whole, rfl, hws⟩ := hwhole hne hzero hdigits
      split at h
      · cases h
      · next fs rest' hnone hfractionDigits =>
          obtain ⟨f, fs, rfl⟩ := List.exists_cons_of_ne_nil hnone
          obtain ⟨fraction, rfl, hfs⟩ := digits_eq hfractionDigits
          obtain ⟨e, he, rfl⟩ := Option.map_eq_some_iff.mp h
          exact ⟨ws, _, e, whole, '.' :: fraction, rest', hws, .some hfs,
            exponent_of_exponentPart he, rfl, rfl⟩
  · next ws rest hne hzero _ hdigits =>
      obtain ⟨whole, rfl, hws⟩ := hwhole hne hzero hdigits
      obtain ⟨e, he, rfl⟩ := Option.map_eq_some_iff.mp h
      exact ⟨ws, [], e, whole, [], rest, hws, .none, exponent_of_exponentPart he, rfl, rfl⟩

theorem ofText?_of_ne_minus {text : List Char} (h : text.head? ≠ some '-') :
    Parts.ofText? text = unsigned? false text := by
  cases text with
  | nil => rfl
  | cons c rest =>
      have hc : c ≠ '-' := fun hc => h (congrArg some hc)
      simp only [Parts.ofText?, List.cons.injEq, hc, false_and, imp_self, implies_true]
      rfl

theorem ofText?_eq_some_iff {text : List Char} {p : Parts} :
    Parts.ofText? text = some p ↔ Number p text := by
  constructor
  · intro h
    by_cases hminus : text.head? = some '-'
    · obtain ⟨rest, rfl⟩ : ∃ rest, text = '-' :: rest := by
        cases text with
        | nil => cases hminus
        | cons c rest =>
            cases hminus
            exact ⟨rest, rfl⟩
      obtain ⟨ws, fs, e, whole, fraction, exponent, hws, hfs, he, rfl, rfl⟩ :=
        number_of_unsigned? (show unsigned? true rest = some p from h)
      exact .negative hws hfs he
    · rw [ofText?_of_ne_minus hminus] at h
      obtain ⟨ws, fs, e, whole, fraction, exponent, hws, hfs, he, rfl, rfl⟩ :=
        number_of_unsigned? h
      exact .positive hws hfs he
  · intro h
    cases h with
    | positive hws hfs he =>
        rw [ofText?_of_ne_minus ?_]
        · exact unsigned?_of_number hws hfs he false
        · obtain ⟨c, tail, rfl, hc⟩ := hws.1.exists_cons
          intro hminus
          cases hminus
          cases hc
    | negative hws hfs he => exact unsigned?_of_number hws hfs he true

/-! ## The characters of a number -/

theorem isNumberChar_of_isDigit {c : Char} (h : c.isDigit = true) :
    Json.Reader.isNumberChar c = true := by
  simp [Json.Reader.isNumberChar, h]

theorem Digits.isDigit {ds : List Nat} {cs : List Char} (h : Digits ds cs) :
    ∀ c ∈ cs, c.isDigit = true := by
  induction h with
  | one hc => simpa using hc
  | cons hc later ih => simpa using ⟨hc, ih⟩

theorem Digits.isNumberChar {ds : List Nat} {cs : List Char} (h : Digits ds cs) :
    ∀ c ∈ cs, Json.Reader.isNumberChar c = true :=
  fun c hc => isNumberChar_of_isDigit (h.isDigit c hc)

theorem Fraction.isNumberChar {ds : List Nat} {cs : List Char} (h : Fraction ds cs) :
    ∀ c ∈ cs, Json.Reader.isNumberChar c = true := by
  cases h with
  | none => simp
  | some h => exact List.forall_mem_cons.mpr ⟨rfl, h.isNumberChar⟩

theorem Exponent.isNumberChar {x : Option (Bool × List Nat)} {cs : List Char} (h : Exponent x cs) :
    ∀ c ∈ cs, Json.Reader.isNumberChar c = true := by
  have hletter {e : Char} (he : e = 'e' ∨ e = 'E') : Json.Reader.isNumberChar e = true := by
    rcases he with rfl | rfl <;> rfl
  cases h with
  | none => simp
  | plain he h => exact List.forall_mem_cons.mpr ⟨hletter he, h.isNumberChar⟩
  | plus he h | minus he h =>
      exact List.forall_mem_cons.mpr ⟨hletter he, List.forall_mem_cons.mpr ⟨rfl, h.isNumberChar⟩⟩

/-- A number consists of the characters of numbers, and its first one starts a number. -/
theorem Number.exists_cons {p : Json.Number.Parts} {cs : List Char} (h : Number p cs) :
    ∃ c tail, cs = c :: tail ∧ Lexeme.isNumberStart c = true ∧
      ∀ d ∈ tail, Json.Reader.isNumberChar d = true := by
  have hchars {ws fs : List Nat} {e : Option (Bool × List Nat)}
      {whole fraction exponent : List Char} (hwhole : Whole ws whole)
      (hfraction : Fraction fs fraction) (hexponent : Exponent e exponent) :
      ∀ c ∈ whole ++ (fraction ++ exponent), Json.Reader.isNumberChar c = true := by
    simp only [List.mem_append]
    rintro c (hc | hc | hc)
    · exact hwhole.1.isNumberChar c hc
    · exact hfraction.isNumberChar c hc
    · exact hexponent.isNumberChar c hc
  cases h with
  | positive hwhole hfraction hexponent =>
      have hall := hchars hwhole hfraction hexponent
      obtain ⟨c, tail, rfl, hc⟩ := hwhole.1.exists_cons
      exact ⟨c, _, rfl, by simp [Lexeme.isNumberStart, hc],
        fun d hd => hall d (List.mem_cons_of_mem _ hd)⟩
  | negative hwhole hfraction hexponent =>
      exact ⟨'-', _, rfl, rfl, hchars hwhole hfraction hexponent⟩

end Grammar

end Stencil
