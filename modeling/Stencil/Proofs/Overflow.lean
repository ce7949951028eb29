import Mathlib.Algebra.GroupWithZero.Nat
import Stencil.Json.Number

/-!
# Which numbers are too large

A number of JSON can only be refused because its double would be too large, and what is too
large can be said without rounding. Rounding a quotient to the nearest magnitude fails exactly
when the quotient comes to `limit`, which lies halfway between the largest magnitude and the
power of two above it: there the tie goes to the even neighbour, and that one is out of range.
Whatever rounding gives is below the limit.

A number is read as the double of its significand, multiplied or divided by doubles of powers
of ten. The significand has 64 bits, and dividing by one or more leads to nothing larger, so
only a product can be too large (`ofParts_eq_none_iff`).
-/

namespace Stencil

/-- Rounding goes up by at most one. -/
theorem roundDiv_cases (num den : Nat) :
    roundDiv num den = num / den ∨ roundDiv num den = num / den + 1 := by
  simp only [roundDiv]
  repeat' split
  all_goals simp

theorem le_roundDiv {num den m : Nat} (hden : 0 < den) (h : den * m ≤ num) :
    m ≤ roundDiv num den := by
  have hdiv : m ≤ num / den := (Nat.le_div_iff_mul_le hden).mpr (Nat.mul_comm den m ▸ h)
  rcases roundDiv_cases num den with hround | hround <;> omega

theorem roundDiv_le {num den m : Nat} (h : num < den * m) : roundDiv num den ≤ m := by
  have hdiv : num / den < m := Nat.div_lt_of_lt_mul h
  rcases roundDiv_cases num den with hround | hround <;> omega

/-- An odd number is passed from the tie above it on. -/
theorem lt_roundDiv_iff {num den m : Nat} (hden : 0 < den) (hodd : m % 2 = 1) :
    m < roundDiv num den ↔ den * (2 * m + 1) ≤ 2 * num := by
  have hnum : den * (num / den) + num % den = num := Nat.div_add_mod num den
  have hmod : num % den < den := Nat.mod_lt _ hden
  have hexpand : den * (2 * m + 1) = 2 * (den * m) + den := by
    rw [Nat.mul_add, Nat.mul_one, Nat.mul_left_comm]
  rw [hexpand]
  rcases Nat.lt_trichotomy m (num / den) with hlt | heq | hgt
  · have hmul : den * (m + 1) ≤ den * (num / den) := Nat.mul_le_mul_left den hlt
    rw [Nat.mul_add, Nat.mul_one] at hmul
    have hround : num / den ≤ roundDiv num den := by
      rcases roundDiv_cases num den with hround | hround <;> omega
    constructor <;> intro <;> omega
  · rw [← heq] at hnum
    have hround : m < roundDiv num den ↔ den ≤ 2 * (num % den) := by
      simp only [roundDiv, ← heq]
      repeat' split
      all_goals omega
    rw [hround]
    omega
  · have hmul : den * (num / den + 1) ≤ den * m := Nat.mul_le_mul_left den hgt
    rw [Nat.mul_add, Nat.mul_one] at hmul
    have hround : roundDiv num den ≤ num / den + 1 := by
      rcases roundDiv_cases num den with hround | hround <;> omega
    constructor <;> intro <;> omega

namespace Magnitude

theorem le_binaryOrder_iff {num den : Nat} (hnum : num ≠ 0) (hden : den ≠ 0) (n : Nat) :
    (n : Int) ≤ binaryOrder num den ↔ den * 2 ^ n ≤ num := by
  have hnumLow : 2 ^ num.log2 ≤ num := Nat.log2_self_le hnum
  have hnumHigh : num < 2 ^ (num.log2 + 1) := Nat.lt_log2_self
  have hdenLow : 2 ^ den.log2 ≤ den := Nat.log2_self_le hden
  have hdenHigh : den < 2 ^ (den.log2 + 1) := Nat.lt_log2_self
  -- The guess is at least `n` on both sides, and then it is a natural number.
  have hguess (m : Nat) (hm : num.log2 = den.log2 + m) :
      binaryOrder num den = if den * 2 ^ m ≤ num then (m : Int) else (m : Int) - 1 := by
    have hdiff : (num.log2 : Int) - den.log2 = m := by omega
    simp only [binaryOrder, hdiff, Int.toNat_natCast, Nat.pow_eq]
    rw [show (-(m : Int)).toNat = 0 by omega, Nat.pow_zero, Nat.mul_one]
  constructor
  · intro hn
    have hle : (n : Int) ≤ (num.log2 : Int) - den.log2 := by
      simp only [binaryOrder] at hn
      split at hn <;> omega
    obtain ⟨m, hm⟩ : ∃ m, num.log2 = den.log2 + m := ⟨num.log2 - den.log2, by omega⟩
    rw [hguess m hm] at hn
    split at hn
    · next hfits =>
        have hpow : 2 ^ n ≤ 2 ^ m := Nat.pow_le_pow_right (by decide) (by omega)
        exact Nat.le_trans (Nat.mul_le_mul_left den hpow) hfits
    · have hpow : 2 ^ (den.log2 + 1) * 2 ^ n ≤ 2 ^ num.log2 := by
        rw [← Nat.pow_add]
        exact Nat.pow_le_pow_right (by decide) (by omega)
      exact Nat.le_trans (Nat.mul_le_mul_right _ (Nat.le_of_lt hdenHigh))
        (Nat.le_trans hpow hnumLow)
  · intro h
    have hpow : 2 ^ (den.log2 + n) < 2 ^ (num.log2 + 1) := by
      rw [Nat.pow_add]
      exact Nat.lt_of_le_of_lt (Nat.le_trans (Nat.mul_le_mul_right _ hdenLow) h) hnumHigh
    have hlt := (Nat.pow_lt_pow_iff_right (by decide)).mp hpow
    obtain ⟨m, hm⟩ : ∃ m, num.log2 = den.log2 + m := ⟨num.log2 - den.log2, by omega⟩
    rw [hguess m hm]
    split
    · omega
    · next hfits =>
        have hne : n ≠ m := by
          rintro rfl
          exact hfits h
        omega

/-- The exponent that a quotient is rounded at. -/
def unit (num den : Nat) : Int := max (binaryOrder num den - 52) minExponent

/-- The quotient in units of that exponent, rounded. -/
def units (num den : Nat) : Nat :=
  roundDiv (num * 2 ^ (-unit num den).toNat) (den * 2 ^ (unit num den).toNat)

/-- The magnitude that a quotient is rounded to, were there no largest one. -/
def rounded (num den : Nat) : Magnitude :=
  if units num den = 2 ^ 53 then ⟨2 ^ 52, unit num den + 1⟩ else ⟨units num den, unit num den⟩

theorem nearest?_eq {num den : Nat} (hnum : num ≠ 0) :
    nearest? num den =
      if maxExponent < (rounded num den).exponent then none else some (rounded num den) := by
  rw [nearest?, if_neg hnum]
  rfl

theorem le_unit {num den n : Nat} (hnum : num ≠ 0) (hden : den ≠ 0)
    (hlow : den * 2 ^ (n + 52) ≤ num) : (n : Int) ≤ unit num den := by
  have horder := (le_binaryOrder_iff hnum hden (n + 52)).mpr hlow
  rw [unit]
  omega

theorem unit_lt {num den n : Nat} (hnum : num ≠ 0) (hden : den ≠ 0)
    (hhigh : num < den * 2 ^ (n + 52)) : unit num den < n := by
  have horder : ¬ ((n + 52 : Nat) : Int) ≤ binaryOrder num den := fun h =>
    absurd ((le_binaryOrder_iff hnum hden (n + 52)).mp h) (Nat.not_le.mpr hhigh)
  rw [unit, minExponent]
  omega

/-- A quotient is rounded past an exponent from halfway above its largest multiple of 53 bits
on. -/
theorem lt_exponent_rounded_iff {num den : Nat} (hnum : num ≠ 0) (hden : den ≠ 0) (k : Nat) :
    ((k + 1 : Nat) : Int) < (rounded num den).exponent ↔
      den * ((2 ^ 54 - 1) * 2 ^ k) ≤ num := by
  have hpos : 0 < den * 2 ^ k := Nat.mul_pos (Nat.pos_of_ne_zero hden) (Nat.two_pow_pos k)
  have hpow (n : Nat) : den * 2 ^ (k + n) = 2 ^ n * (den * 2 ^ k) := by
    rw [Nat.pow_add, ← Nat.mul_assoc, Nat.mul_comm]
  have hexponent : (rounded num den).exponent =
      if units num den = 2 ^ 53 then unit num den + 1 else unit num den := by
    rw [rounded]
    split <;> rfl
  rw [hexponent, Nat.mul_left_comm]
  by_cases hhigh : den * 2 ^ (k + 54) ≤ num
  · have hunit : ((k + 2 : Nat) : Int) ≤ unit num den := le_unit hnum hden hhigh
    rw [hpow] at hhigh
    split <;> omega
  by_cases hlow : den * 2 ^ (k + 53) ≤ num
  · have hunit : unit num den = (k + 1 : Nat) := by
      have hle : ((k + 1 : Nat) : Int) ≤ unit num den := le_unit hnum hden hlow
      have hlt : unit num den < (k + 2 : Nat) := unit_lt hnum hden (Nat.not_le.mp hhigh)
      omega
    have hunits : units num den = roundDiv num (den * 2 ^ (k + 1)) := by
      rw [units, hunit, Int.toNat_natCast, show (-((k + 1 : Nat) : Int)).toNat = 0 by omega,
        Nat.pow_zero, Nat.mul_one]
    have hmost : roundDiv num (den * 2 ^ (k + 1)) ≤ 2 ^ 53 := by
      refine roundDiv_le ?_
      rw [Nat.mul_assoc, ← Nat.pow_add]
      exact Nat.not_le.mp hhigh
    have hpass : 2 ^ 53 - 1 < roundDiv num (den * 2 ^ (k + 1)) ↔
        den * 2 ^ (k + 1) * (2 * (2 ^ 53 - 1) + 1) ≤ 2 * num :=
      lt_roundDiv_iff (Nat.mul_pos (Nat.pos_of_ne_zero hden) (Nat.two_pow_pos _)) (by decide)
    rw [hpow 1] at hpass hmost
    rw [hunit, hunits, hpow 1]
    split <;> omega
  · have hunit : unit num den < (k + 1 : Nat) := unit_lt hnum hden (Nat.not_le.mp hlow)
    rw [hpow] at hlow
    split <;> omega

/-- The size halfway between the largest magnitude and the power of two above it. -/
def limit : Nat := (2 ^ 54 - 1) * 2 ^ (maxExponent.toNat - 1)

theorem limit_pos : 0 < limit := Nat.mul_pos (by decide) (Nat.two_pow_pos _)

/-- Rounding refuses what is no smaller than the limit, and nothing else. -/
theorem nearest?_eq_none_iff {num den : Nat} (hden : den ≠ 0) :
    nearest? num den = none ↔ den * limit ≤ num := by
  by_cases hnum : num = 0
  · subst hnum
    have hpos : 0 < den * limit := Nat.mul_pos (Nat.pos_of_ne_zero hden) limit_pos
    rw [nearest?, if_pos rfl]
    simp only [reduceCtorEq, false_iff]
    omega
  · have hmax : maxExponent = ((maxExponent.toNat - 1 + 1 : Nat) : Int) := rfl
    rw [nearest?_eq hnum, limit, ← lt_exponent_rounded_iff hnum hden, ← hmax]
    split
    · next hlarge => exact iff_of_true rfl hlarge
    · next hfits => exact iff_of_false (Option.some_ne_none _) hfits

theorem units_le (num : Nat) {den : Nat} (hden : den ≠ 0) : units num den ≤ 2 ^ 54 := by
  have hnumHigh : num < 2 ^ (num.log2 + 1) := Nat.lt_log2_self
  have hdenLow : 2 ^ den.log2 ≤ den := Nat.log2_self_le hden
  have hunit : (num.log2 : Int) - den.log2 ≤ unit num den + 53 := by
    simp only [unit, binaryOrder]
    split <;> omega
  refine roundDiv_le ?_
  generalize unit num den = e at hunit
  have hpow : 2 ^ (num.log2 + 1 + (-e).toNat) ≤ 2 ^ (den.log2 + e.toNat + 54) :=
    Nat.pow_le_pow_right (by decide) (by omega)
  calc num * 2 ^ (-e).toNat < 2 ^ (num.log2 + 1) * 2 ^ (-e).toNat :=
        Nat.mul_lt_mul_of_pos_right hnumHigh (Nat.two_pow_pos _)
    _ ≤ 2 ^ den.log2 * 2 ^ e.toNat * 2 ^ 54 := by
        rw [← Nat.pow_add, ← Nat.pow_add, ← Nat.pow_add]
        exact hpow
    _ ≤ den * 2 ^ e.toNat * 2 ^ 54 :=
        Nat.mul_le_mul_right _ (Nat.mul_le_mul_right _ hdenLow)

theorem units_le_of_nonneg {num den n : Nat} (hnum : num ≠ 0) (hden : den ≠ 0)
    (h : unit num den = n) : units num den ≤ 2 ^ 53 := by
  have hhigh : num < den * 2 ^ (n + 1 + 52) := by
    rw [← Nat.not_le]
    intro hlow
    have hle := le_unit hnum hden hlow
    omega
  rw [units, h, Int.toNat_natCast, show (-(n : Int)).toNat = 0 by omega, Nat.pow_zero, Nat.mul_one]
  refine roundDiv_le ?_
  rw [Nat.mul_assoc, ← Nat.pow_add]
  exact hhigh

/-- Whether a magnitude is no larger than the largest one. -/
def InRange (x : Magnitude) : Prop := x.num < x.den * limit

theorem den_pos (x : Magnitude) : 0 < x.den := Nat.two_pow_pos _

theorem inRange_of_le {x : Magnitude} (hexponent : x.exponent ≤ maxExponent)
    (hsignificand : x.significand < 2 ^ 53 ∨ x.exponent < 0 ∧ x.significand ≤ 2 ^ 54) :
    x.InRange := by
  have hden : 1 * limit ≤ x.den * limit := Nat.mul_le_mul_right _ x.den_pos
  have hmax : maxExponent = ((maxExponent.toNat - 1 + 1 : Nat) : Int) := rfl
  refine Nat.lt_of_lt_of_le ?_ hden
  show x.significand * 2 ^ x.exponent.toNat < 1 * limit
  rw [limit, Nat.one_mul]
  rcases hsignificand with hsmall | ⟨hnegative, hsmall⟩
  · generalize maxExponent.toNat - 1 = k at hmax ⊢
    have hpow : 2 ^ x.exponent.toNat ≤ 2 ^ (k + 1) := Nat.pow_le_pow_right (by decide) (by omega)
    have hpos : 0 < 2 ^ k := Nat.two_pow_pos k
    calc x.significand * 2 ^ x.exponent.toNat ≤ (2 ^ 53 - 1) * 2 ^ (k + 1) :=
          Nat.mul_le_mul (by omega) hpow
      _ < (2 ^ 54 - 1) * 2 ^ k := by
          rw [Nat.pow_succ]
          omega
  · have htop : 2 ^ 1 ≤ 2 ^ (maxExponent.toNat - 1) := Nat.pow_le_pow_right (by decide) (by decide)
    have hmul := Nat.mul_le_mul_left (2 ^ 54 - 1) htop
    rw [show x.exponent.toNat = 0 by omega, Nat.pow_zero, Nat.mul_one]
    omega

theorem inRange_rounded {num den : Nat} (hnum : num ≠ 0) (hden : den ≠ 0)
    (h : ¬ maxExponent < (rounded num den).exponent) : (rounded num den).InRange := by
  refine inRange_of_le (Int.not_lt.mp h) ?_
  have hmost := units_le num hden
  rw [rounded]
  split
  · exact Or.inl (show 2 ^ 52 < 2 ^ 53 by decide)
  · next hne =>
      by_cases hunit : unit num den < 0
      · exact Or.inr ⟨hunit, hmost⟩
      · obtain ⟨n, hn⟩ : ∃ n : Nat, unit num den = n := ⟨(unit num den).toNat, by omega⟩
        have hfull := units_le_of_nonneg hnum hden hn
        exact Or.inl (by dsimp only; omega)

theorem inRange_of_nearest? {num den : Nat} (hden : den ≠ 0) {x : Magnitude}
    (h : nearest? num den = some x) : x.InRange := by
  by_cases hnum : num = 0
  · rw [nearest?, if_pos hnum] at h
    cases h
    exact inRange_of_le (by decide) (Or.inl (by decide))
  · rw [nearest?_eq hnum] at h
    split at h
    · cases h
    · next hfits =>
        cases h
        exact inRange_rounded hnum hden hfits

/-- What is no less than one is not rounded to less than one. -/
theorem den_le_num_of_nearest? {num den : Nat} (hden : den ≠ 0) (h : den ≤ num) {x : Magnitude}
    (hx : nearest? num den = some x) : x.den ≤ x.num := by
  have hpos : 0 < den := Nat.pos_of_ne_zero hden
  have hnum : num ≠ 0 := Nat.ne_of_gt (Nat.lt_of_lt_of_le hpos h)
  have horder : (0 : Nat) ≤ binaryOrder num den :=
    (le_binaryOrder_iff hnum hden 0).mpr (by rw [Nat.pow_zero, Nat.mul_one]; exact h)
  have hunit : -52 ≤ unit num den ∧ ((unit num den).toNat : Int) ≤ binaryOrder num den := by
    rw [unit, minExponent]
    omega
  have hunits : 2 ^ (-unit num den).toNat ≤ units num den := by
    refine le_roundDiv (Nat.mul_pos hpos (Nat.two_pow_pos _)) (Nat.mul_le_mul_right _ ?_)
    exact (le_binaryOrder_iff hnum hden _).mp hunit.2
  rw [nearest?_eq hnum] at hx
  split at hx
  · cases hx
  · cases hx
    rw [rounded]
    split
    · show 2 ^ (-(unit num den + 1)).toNat ≤ 2 ^ 52 * 2 ^ (unit num den + 1).toNat
      rw [← Nat.pow_add]
      exact Nat.pow_le_pow_right (by decide) (by omega)
    · exact Nat.le_trans hunits (Nat.le_mul_of_pos_right _ (Nat.two_pow_pos _))

theorem num_pos {x : Magnitude} (h : x.isZero = false) : 0 < x.num := by
  rw [isZero, beq_eq_false_iff_ne] at h
  exact Nat.mul_pos (Nat.pos_of_ne_zero h) (Nat.two_pow_pos _)

theorem div?_eq {x y : Magnitude} (hy : y.isZero = false) :
    x.div? y = nearest? (x.num * y.den) (x.den * y.num) ∧ x.den * y.num ≠ 0 := by
  refine ⟨?_, Nat.ne_of_gt (Nat.mul_pos x.den_pos (num_pos hy))⟩
  rw [div?, hy]
  rfl

theorem inRange_of_div? {x y z : Magnitude} (h : x.div? y = some z) : z.InRange := by
  cases hy : y.isZero with
  | true =>
      rw [div?, hy] at h
      cases h
  | false =>
      obtain ⟨heq, hden⟩ := div?_eq (x := x) hy
      rw [heq] at h
      exact inRange_of_nearest? hden h

/-- A quotient by no less than one is not too large. -/
theorem div?_ne_none {x y : Magnitude} (hx : x.InRange) (hy : y.den ≤ y.num) : x.div? y ≠ none := by
  have hpos : 0 < y.num := Nat.lt_of_lt_of_le y.den_pos hy
  have hzero : y.isZero = false := by
    rw [isZero, beq_eq_false_iff_ne]
    intro hzero
    rw [num, hzero, Nat.zero_mul] at hpos
    exact absurd hpos (Nat.lt_irrefl 0)
  obtain ⟨heq, hden⟩ := div?_eq (x := x) hzero
  rw [heq, ne_eq, nearest?_eq_none_iff hden, Nat.not_le]
  calc x.num * y.den ≤ x.num * y.num := Nat.mul_le_mul_left _ hy
    _ < x.den * limit * y.num := Nat.mul_lt_mul_of_pos_right hx hpos
    _ = x.den * y.num * limit := Nat.mul_right_comm _ _ _

end Magnitude

namespace Json.Number

open Magnitude

theorem one_le_powerOfTen {k : Nat} (h : k ≤ maxScale) :
    (powerOfTen k).den ≤ (powerOfTen k).num := by
  have hsome : Magnitude.nearest? (Nat.pow 10 k) 1 ≠ none := by
    have hpow : 10 ^ k ≤ 10 ^ maxScale := Nat.pow_le_pow_right (by decide) h
    have hmax : 10 ^ maxScale < 1 * limit := by decide +kernel
    rw [ne_eq, nearest?_eq_none_iff Nat.one_ne_zero, Nat.not_le]
    exact Nat.lt_of_le_of_lt hpow hmax
  obtain ⟨x, hx⟩ := Option.ne_none_iff_exists'.mp hsome
  rw [powerOfTen, hx]
  exact den_le_num_of_nearest? Nat.one_ne_zero (Nat.pow_pos (by decide)) hx

theorem inRange_shrink {x : Magnitude} (hx : x.InRange) (rounds : Nat) :
    (shrink rounds x).InRange := by
  induction rounds generalizing x with
  | zero => exact hx
  | succ rounds ih =>
      rw [shrink]
      split
      · exact hx
      · obtain ⟨y, hy⟩ := Option.ne_none_iff_exists'.mp
          (div?_ne_none hx (one_le_powerOfTen (Nat.le_refl maxScale)))
        rw [hy]
        exact ih (inRange_of_div? hy)

/-- Whether a magnitude times a power of ten is too large. -/
def TooLarge (x : Magnitude) (k : Nat) : Prop :=
  if k ≤ maxScale then x.den * (powerOfTen k).den * limit ≤ x.num * (powerOfTen k).num
  else x.isZero = false

theorem scale_eq_none_iff {x : Magnitude} (hx : x.InRange) (exponent : Int) :
    scale x exponent = none ↔ ∃ k : Nat, exponent = k ∧ TooLarge x k := by
  match exponent with
  | .ofNat k =>
      have hk : (∃ j : Nat, Int.ofNat k = j ∧ TooLarge x j) ↔ TooLarge x k := by
        constructor
        · rintro ⟨j, hj, hlarge⟩
          cases hj
          exact hlarge
        · exact fun hlarge => ⟨k, rfl, hlarge⟩
      rw [hk, TooLarge]
      simp only [scale]
      by_cases hscale : k ≤ maxScale
      · rw [if_pos hscale, if_pos hscale, mul?]
        exact nearest?_eq_none_iff (Nat.ne_of_gt (Nat.mul_pos x.den_pos (powerOfTen k).den_pos))
      · rw [if_neg hscale, if_neg hscale]
        cases x.isZero <;> simp
  | .negSucc k =>
      have hmod : k + 1 - k / maxScale * maxScale ≤ maxScale := by
        have hdiv := Nat.div_add_mod k maxScale
        have hlt := Nat.mod_lt k (show 0 < maxScale by decide)
        rw [Nat.mul_comm] at hdiv
        omega
      refine iff_of_false (div?_ne_none (inRange_shrink hx _) (one_le_powerOfTen hmod)) ?_
      rintro ⟨j, hj, -⟩
      cases hj

/-- The digits of a number that fit into its significand. -/
def Parts.significand (p : Parts) : Nat := (absorb (absorb 0 p.whole).1 p.fraction).1

/-- The power of ten by which the significand is scaled. -/
def Parts.scaling (p : Parts) : Int :=
  let place : Int := ((absorb 0 p.whole).2.length : Int) -
    ((p.fraction.length : Int) - (absorb (absorb 0 p.whole).1 p.fraction).2.length)
  match p.exponent with
  | none => place
  | some (true, ds) => place - ofDigits ds
  | some (false, ds) => place + ofDigits ds

/-- Whether a number is too large for a double. -/
def Parts.Overflows (p : Parts) : Prop :=
  ∃ x k, Magnitude.nearest? p.significand 1 = some x ∧ p.scaling = (k : Nat) ∧ TooLarge x k

theorem absorb_le {significand : Nat} (h : significand ≤ maxSignificand) (ds : List Nat) :
    (absorb significand ds).1 ≤ maxSignificand := by
  induction ds generalizing significand with
  | nil => exact h
  | cons d ds ih =>
      rw [absorb]
      split
      · exact h
      · next hfits => exact ih (Nat.not_lt.mp hfits)

theorem exists_nearest?_of_le {n : Nat} (h : n ≤ maxSignificand) :
    ∃ x, Magnitude.nearest? n 1 = some x ∧ x.InRange := by
  have hlimit : maxSignificand < 1 * limit := by
    have htop : 2 ^ 11 ≤ 2 ^ (maxExponent.toNat - 1) :=
      Nat.pow_le_pow_right (by decide) (by decide)
    have hmul := Nat.mul_le_mul_left (2 ^ 54 - 1) htop
    rw [limit, Nat.one_mul]
    exact Nat.lt_of_lt_of_le (by decide) hmul
  have hsome : Magnitude.nearest? n 1 ≠ none := by
    rw [ne_eq, nearest?_eq_none_iff Nat.one_ne_zero, Nat.not_le]
    exact Nat.lt_of_le_of_lt h hlimit
  obtain ⟨x, hx⟩ := Option.ne_none_iff_exists'.mp hsome
  exact ⟨x, hx, inRange_of_nearest? Nat.one_ne_zero hx⟩

/-- A number has no value exactly when it is too large for a double. -/
theorem ofParts_eq_none_iff (p : Parts) : ofParts p = none ↔ p.Overflows := by
  have hlead : (absorb 0 p.whole).1 ≤ maxSignificand := absorb_le (Nat.zero_le _) _
  obtain ⟨x, hx, hrange⟩ := exists_nearest?_of_le (n := p.significand) (absorb_le hlead p.fraction)
  have hoverflows : p.Overflows ↔ scale x p.scaling = none := by
    rw [scale_eq_none_iff hrange, Parts.Overflows]
    constructor
    · rintro ⟨y, k, hy, hk, hlarge⟩
      cases hx.symm.trans hy
      exact ⟨k, hk, hlarge⟩
    · rintro ⟨k, hk, hlarge⟩
      exact ⟨x, k, hx, hk, hlarge⟩
  rw [hoverflows]
  simp only [ofParts]
  split
  · next hfraction hexponent hdropped =>
      -- An integer that fits into the significand is scaled by one.
      have hscaling : p.scaling = (0 : Nat) := by
        simp only [Parts.scaling, hfraction, hexponent, hdropped, absorb]
        rfl
      have hone : ¬ TooLarge x 0 := by
        have hsame : (powerOfTen 0).num = (powerOfTen 0).den := by decide +kernel
        rw [TooLarge, if_pos (Nat.zero_le _), Nat.not_le, hsame, Nat.mul_right_comm]
        exact Nat.mul_lt_mul_of_pos_right hrange (powerOfTen 0).den_pos
      have hscale : scale x p.scaling ≠ none := by
        rw [ne_eq, scale_eq_none_iff hrange, hscaling]
        rintro ⟨k, hk, hlarge⟩
        cases hk
        exact hone hlarge
      obtain ⟨y, hy, -⟩ := exists_nearest?_of_le hlead
      refine iff_of_false ?_ hscale
      split
      · split
        · simp [hy]
        · exact Option.some_ne_none _
      · exact Option.some_ne_none _
  · have hdouble : (do
        let y ← Magnitude.nearest? p.significand 1
        let y ← scale y p.scaling
        return Json.Number.double ⟨p.negative, y⟩) = none ↔ scale x p.scaling = none := by
      rw [hx]
      cases hscale : scale x p.scaling <;> simp [hscale]
    exact hdouble

/-- The value of a number that is not too large. -/
def Parts.value (p : Parts) : Json.Number := (ofParts p).getD default

theorem ofParts_eq_some_iff {p : Parts} {n : Json.Number} :
    ofParts p = some n ↔ ¬ p.Overflows ∧ p.value = n := by
  rw [← ofParts_eq_none_iff, Parts.value]
  cases ofParts p with
  | none => simp
  | some m => simp

end Json.Number

end Stencil
