import Mathlib.Algebra.Order.Field.Power
import Mathlib.Algebra.Order.Field.Rat
import Mathlib.Tactic.GCongr
import Mathlib.Tactic.Linarith
import Mathlib.Tactic.Positivity
import Mathlib.Tactic.Ring
import Stencil.Binary64.Shortest
import Stencil.Proofs.Overflow

/-!
# The shortest decimal reads back

The magnitudes are kept in one form, and the decimals that round to one of them are those of an
interval around it. Two magnitudes have no decimal in common: where their intervals touch, the
end belongs to at most one of them, because of two neighbours one has an odd significand
(`eq_of_readsBack`).

That the search for the shortest decimal succeeds is a matter of widths. A grid of seventeen
digits is finer than the interval, so one of a magnitude's two neighbours on it is inside
(`exists_decimalOf?_seventeen`). All that is needed of the decimal order is that it is not too
large, and it is estimated from the binary order by a fraction close to the logarithm of two.
So a magnitude can be told from its shortest decimal (`eq_of_toRat_shortest_eq`).
-/

namespace Stencil

/-- The number a decimal denotes. -/
def Decimal.toRat (d : Decimal) : ℚ := d.digits * 10 ^ d.exponent

theorem Decimal.toRat_ofGrid {count : Nat} (h : 0 < count) (n : Nat) (unit : Int) :
    (Decimal.ofGrid count n unit).toRat = n * 10 ^ unit := by
  obtain ⟨count, rfl⟩ := Nat.exists_eq_add_of_lt h
  rw [ofGrid]
  split
  · next hn =>
      subst hn
      simp only [toRat, Nat.pow_eq, Nat.zero_add, Nat.add_sub_cancel, Nat.cast_pow,
        Nat.cast_ofNat, zpow_add_one₀ (show (10 : ℚ) ≠ 0 by norm_num), pow_succ, Nat.cast_mul]
      ring
  · rfl

/-- A power with an exponent of either sign, as a quotient of natural powers. -/
theorem zpow_mul_toNat_neg {b : ℚ} (hb : b ≠ 0) (z : Int) :
    b ^ z * b ^ (-z).toNat = b ^ z.toNat := by
  rw [← zpow_natCast, ← zpow_natCast, ← zpow_add₀ hb]
  congr 1
  omega

/-- Comparing a quotient with a multiple of a power, whose exponent is of either sign, in
natural numbers. -/
theorem mul_pow_le_iff {b : Nat} (hb : b ≠ 0) (num : Nat) {den : Nat} (hden : den ≠ 0) (c : Nat)
    (z : Int) :
    den * b ^ z.toNat * c ≤ num * b ^ (-z).toNat ↔ (c : ℚ) * b ^ z ≤ num / den := by
  have hbase : (0 : ℚ) < b := by exact_mod_cast Nat.pos_of_ne_zero hb
  have hpos : (0 : ℚ) < den := by exact_mod_cast Nat.pos_of_ne_zero hden
  have hscale : (0 : ℚ) < b ^ (-z).toNat := by positivity
  have hleft : ((den * b ^ z.toNat * c : Nat) : ℚ) = c * b ^ z * den * b ^ (-z).toNat := by
    push_cast
    rw [← zpow_mul_toNat_neg hbase.ne']
    ring
  rw [le_div_iff₀ hpos, ← Nat.cast_le (α := ℚ), hleft, Nat.cast_mul, Nat.cast_pow,
    mul_le_mul_iff_left₀ hscale]

namespace Magnitude

/-- The number a magnitude is. -/
def toRat (x : Magnitude) : ℚ := x.significand * 2 ^ x.exponent

/-- The one form in which each magnitude is kept. -/
structure Canonical (x : Magnitude) : Prop where
  bits : x.significand < 2 ^ 53
  minExponent_le : minExponent ≤ x.exponent
  le_maxExponent : x.exponent ≤ maxExponent
  full : minExponent < x.exponent → 2 ^ 52 ≤ x.significand

/-! ## The form -/

/-- A quotient lies between the powers of two of its binary order and the next one. -/
theorem binaryOrder_bounds {num den : Nat} (hnum : num ≠ 0) (hden : den ≠ 0) :
    (2 : ℚ) ^ binaryOrder num den ≤ num / den ∧
      (num / den : ℚ) < 2 ^ (binaryOrder num den + 1) := by
  obtain ⟨guess, hguess⟩ : ∃ guess : Int, guess = (num.log2 : Int) - den.log2 := ⟨_, rfl⟩
  have hpos : (0 : ℚ) < den := by exact_mod_cast Nat.pos_of_ne_zero hden
  have hnumLow : (2 : ℚ) ^ (num.log2 : Int) ≤ num := by exact_mod_cast Nat.log2_self_le hnum
  have hnumHigh : (num : ℚ) < 2 ^ ((num.log2 : Int) + 1) := by
    have hlt : num < 2 ^ (num.log2 + 1) := Nat.lt_log2_self
    exact_mod_cast hlt
  have hdenLow : (2 : ℚ) ^ (den.log2 : Int) ≤ den := by exact_mod_cast Nat.log2_self_le hden
  have hdenHigh : (den : ℚ) < 2 ^ ((den.log2 : Int) + 1) := by
    have hlt : den < 2 ^ (den.log2 + 1) := Nat.lt_log2_self
    exact_mod_cast hlt
  have hsplit (k : Int) (e : Int) : (2 : ℚ) ^ (k + e) = 2 ^ k * 2 ^ e :=
    zpow_add₀ (by norm_num) k e
  have hlow : (2 : ℚ) ^ (guess - 1) ≤ num / den := by
    rw [le_div_iff₀ hpos]
    calc (2 : ℚ) ^ (guess - 1) * den ≤ 2 ^ (guess - 1) * 2 ^ ((den.log2 : Int) + 1) := by gcongr
      _ = 2 ^ (num.log2 : Int) := by
          rw [← hsplit, hguess]
          congr 1
          ring
      _ ≤ num := hnumLow
  have hhigh : (num / den : ℚ) < 2 ^ (guess + 1) := by
    rw [div_lt_iff₀ hpos]
    calc (num : ℚ) < 2 ^ ((num.log2 : Int) + 1) := hnumHigh
      _ = 2 ^ (guess + 1) * 2 ^ (den.log2 : Int) := by
          rw [← hsplit, hguess]
          congr 1
          ring
      _ ≤ 2 ^ (guess + 1) * den := by gcongr
  have htest : den * 2 ^ guess.toNat ≤ num * 2 ^ (-guess).toNat ↔ (2 : ℚ) ^ guess ≤ num / den := by
    simpa using mul_pow_le_iff (b := 2) (by decide) num hden 1 guess
  simp only [binaryOrder, ← hguess, Nat.pow_eq, htest]
  split
  · next hfits => exact ⟨hfits, hhigh⟩
  · next hfits =>
      rw [Int.sub_add_cancel]
      exact ⟨hlow, not_le.mp hfits⟩

/-- Rounding gives a magnitude in its form. -/
theorem canonical_of_nearest? {num den : Nat} (hden : den ≠ 0) {x : Magnitude}
    (h : nearest? num den = some x) : x.Canonical := by
  by_cases hnum : num = 0
  · rw [nearest?, if_pos hnum] at h
    cases h
    exact ⟨by decide, by decide, by decide, by decide⟩
  obtain ⟨hlow, hhigh⟩ := binaryOrder_bounds hnum hden
  obtain ⟨u, hu⟩ : ∃ u, u = unit num den := ⟨_, rfl⟩
  have hunit : u = max (binaryOrder num den - 52) minExponent := hu
  have hgrid : 0 < den * 2 ^ u.toNat := by positivity
  have hsplit (n : Nat) : ((2 ^ n : Nat) : ℚ) * (2 : Nat) ^ u = 2 ^ (n + u) := by
    rw [Nat.cast_pow, Nat.cast_ofNat, zpow_add₀ (by norm_num), zpow_natCast]
  have hmost : units num den ≤ 2 ^ 53 := by
    rw [units, ← hu]
    refine roundDiv_le (Nat.not_le.mp ?_)
    rw [mul_pow_le_iff (by decide) num hden, not_le, hsplit]
    exact lt_of_lt_of_le hhigh (zpow_le_zpow_right₀ (by norm_num) (by omega))
  have hleast : minExponent < u → 2 ^ 52 ≤ units num den := by
    intro hnormal
    rw [units, ← hu]
    refine le_roundDiv hgrid ?_
    rw [mul_pow_le_iff (by decide) num hden, hsplit]
    exact le_trans (zpow_le_zpow_right₀ (by norm_num) (by omega)) hlow
  rw [nearest?_eq hnum] at h
  split at h
  · cases h
  · next hfits =>
      cases h
      rw [rounded, ← hu] at hfits ⊢
      split at hfits
      · next hround =>
          rw [if_pos hround]
          exact ⟨Nat.pow_lt_pow_right (by decide) (by decide), by dsimp only; omega,
            Int.not_lt.mp hfits, fun _ => Nat.le_refl _⟩
      · next hround =>
          rw [if_neg hround]
          exact ⟨by dsimp only; omega, by dsimp only; omega, Int.not_lt.mp hfits, hleast⟩

theorem canonical_of_mul? {x y z : Magnitude} (h : x.mul? y = some z) : z.Canonical :=
  canonical_of_nearest? (Nat.ne_of_gt (Nat.mul_pos x.den_pos y.den_pos)) h

theorem canonical_of_div? {x y z : Magnitude} (h : x.div? y = some z) : z.Canonical := by
  cases hy : y.isZero with
  | true =>
      rw [div?, hy] at h
      cases h
  | false =>
      obtain ⟨heq, hden⟩ := div?_eq (x := x) hy
      exact canonical_of_nearest? hden (heq ▸ h)

/-- Whether the magnitude below is nearer than the one above. -/
def Narrow (x : Magnitude) : Prop := x.significand = 2 ^ 52 ∧ minExponent < x.exponent

instance (x : Magnitude) : Decidable x.Narrow := inferInstanceAs (Decidable (_ ∧ _))

/-- Halfway to the magnitude below. -/
def lower (x : Magnitude) : ℚ :=
  (x.significand - if x.Narrow then 1 / 4 else 1 / 2) * 2 ^ x.exponent

/-- Halfway to the magnitude above. -/
def upper (x : Magnitude) : ℚ := (x.significand + 1 / 2) * 2 ^ x.exponent

/-- Whether a number rounds to `x`. -/
def Covers (x : Magnitude) (v : ℚ) : Prop :=
  if x.significand % 2 = 0 then x.lower ≤ v ∧ v ≤ x.upper else x.lower < v ∧ v < x.upper

theorem Covers.lower_le {x : Magnitude} {v : ℚ} (h : x.Covers v) : x.lower ≤ v := by
  rw [Covers] at h
  split at h
  · exact h.1
  · exact h.1.le

theorem Covers.le_upper {x : Magnitude} {v : ℚ} (h : x.Covers v) : v ≤ x.upper := by
  rw [Covers] at h
  split at h
  · exact h.2
  · exact h.2.le

/-- An end of the interval belongs to it only at an even significand. -/
theorem Covers.lt {x : Magnitude} {v : ℚ} (h : x.Covers v) (hodd : x.significand % 2 ≠ 0) :
    x.lower < v ∧ v < x.upper := by
  rwa [Covers, if_neg hodd] at h

theorem covers_of_lt {x : Magnitude} {v : ℚ} (hlower : x.lower < v) (hupper : v < x.upper) :
    x.Covers v := by
  rw [Covers]
  split
  · exact ⟨hlower.le, hupper.le⟩
  · exact ⟨hlower, hupper⟩

/-- The test of the search, in rational numbers. -/
theorem readsBack_iff {x : Magnitude} (hx : x.significand ≠ 0) (d : Decimal) :
    x.readsBack d = true ↔ x.Covers d.toRat := by
  have hquarter : (2 : ℚ) ^ (x.exponent - 2) = 2 ^ x.exponent / 4 := by
    rw [zpow_sub₀ (by norm_num)]
    norm_num
  -- Both sides of a comparison have the same denominator.
  obtain ⟨den, hden, hpoint, hend⟩ : ∃ den : ℚ, 0 < den ∧
      ((d.digits * Nat.pow 10 d.exponent.toNat * Nat.pow 2 (-(x.exponent - 2)).toNat : Nat) : ℚ) =
        d.toRat * den ∧
      ∀ n : Nat,
        ((n * (Nat.pow 10 (-d.exponent).toNat * Nat.pow 2 (x.exponent - 2).toNat) : Nat) : ℚ) =
        n / 4 * 2 ^ x.exponent * den := by
    have hten := zpow_mul_toNat_neg (show (10 : ℚ) ≠ 0 by norm_num) d.exponent
    have htwo := zpow_mul_toNat_neg (show (2 : ℚ) ≠ 0 by norm_num) (x.exponent - 2)
    refine ⟨10 ^ (-d.exponent).toNat * 2 ^ (-(x.exponent - 2)).toNat, by positivity, ?_,
      fun n => ?_⟩
    · simp only [Nat.pow_eq, Nat.cast_mul, Nat.cast_pow, Nat.cast_ofNat, Decimal.toRat, ← hten]
      ring
    · simp only [Nat.pow_eq, Nat.cast_mul, Nat.cast_pow, Nat.cast_ofNat, ← htwo, hquarter]
      ring
  have hnarrow : (x.significand == fullSignificand && decide (minExponent < x.exponent)) = true ↔
      x.Narrow := by
    simp [Narrow, fullSignificand]
  have hlower : ((4 * x.significand - if x.Narrow then 1 else 2 : Nat) : ℚ) / 4 * 2 ^ x.exponent =
      x.lower := by
    rw [lower, Nat.cast_sub (by split <;> omega)]
    split <;> (push_cast; ring)
  have hupper : ((4 * x.significand + 2 : Nat) : ℚ) / 4 * 2 ^ x.exponent = x.upper := by
    rw [upper]
    push_cast
    ring
  have hle {a b : Nat} {p q : ℚ} (ha : (a : ℚ) = p * den) (hb : (b : ℚ) = q * den) :
      a ≤ b ↔ p ≤ q := by
    rw [← Nat.cast_le (α := ℚ), ha, hb, mul_le_mul_iff_left₀ hden]
  have hlt {a b : Nat} {p q : ℚ} (ha : (a : ℚ) = p * den) (hb : (b : ℚ) = q * den) :
      a < b ↔ p < q := by
    rw [← Nat.cast_lt (α := ℚ), ha, hb, mul_lt_mul_iff_left₀ hden]
  simp only [readsBack, Covers, hnarrow]
  split
  · rw [Bool.and_eq_true, decide_eq_true_iff, decide_eq_true_iff, hle (hend _) hpoint,
      hle hpoint (hend _), hlower, hupper]
  · rw [Bool.and_eq_true, decide_eq_true_iff, decide_eq_true_iff, hlt (hend _) hpoint,
      hlt hpoint (hend _), hlower, hupper]

/-! ## No decimal for two magnitudes -/

theorem two_mul_zpow_le {e f : Int} (h : e < f) : 2 * (2 : ℚ) ^ e ≤ 2 ^ f := by
  rw [mul_comm, ← zpow_add_one₀ (by norm_num)]
  exact zpow_le_zpow_right₀ (by norm_num) h

/-- The interval of a magnitude ends before that of a larger one begins, and where they touch,
one significand is odd. -/
theorem upper_le_lower {x y : Magnitude} (hx : x.Canonical) (hy : y.Canonical)
    (h : x.exponent < y.exponent ∨ x.exponent = y.exponent ∧ x.significand < y.significand) :
    x.upper ≤ y.lower ∧
      (x.significand % 2 = 0 → y.significand % 2 = 0 → x.upper < y.lower) := by
  rcases h with hlt | ⟨heq, hlt⟩
  · have hfull : (2 : ℚ) ^ 52 ≤ y.significand := by
      exact_mod_cast hy.full (lt_of_le_of_lt hx.minExponent_le hlt)
    have hpow : 2 * (2 : ℚ) ^ x.exponent ≤ 2 ^ y.exponent := two_mul_zpow_le hlt
    have hlower : (2 ^ 52 - 1 / 4 : ℚ) * 2 ^ y.exponent ≤ y.lower := by
      rw [lower]
      refine mul_le_mul_of_nonneg_right ?_ (by positivity)
      split
      · linarith
      · next hwide =>
          have hmore : (2 : ℚ) ^ 52 + 1 ≤ y.significand := by
            have hne : y.significand ≠ 2 ^ 52 := fun hs =>
              hwide ⟨hs, lt_of_le_of_lt hx.minExponent_le hlt⟩
            have hge := hy.full (lt_of_le_of_lt hx.minExponent_le hlt)
            exact_mod_cast (show 2 ^ 52 + 1 ≤ y.significand by omega)
          linarith
    have hpos : (0 : ℚ) < 2 ^ x.exponent := by positivity
    have hmid : (2 ^ 53 - 1 / 2 : ℚ) * 2 ^ x.exponent ≤ y.lower := by
      calc (2 ^ 53 - 1 / 2 : ℚ) * 2 ^ x.exponent
          = (2 ^ 52 - 1 / 4) * (2 * 2 ^ x.exponent) := by ring
        _ ≤ (2 ^ 52 - 1 / 4) * 2 ^ y.exponent := by gcongr
        _ ≤ y.lower := hlower
    have hbits : (x.significand : ℚ) ≤ 2 ^ 53 - 1 := by
      have hle : x.significand + 1 ≤ 2 ^ 53 := hx.bits
      have hcast : (x.significand : ℚ) + 1 ≤ 2 ^ 53 := by exact_mod_cast hle
      linarith
    refine ⟨le_trans ?_ hmid, fun heven _ => lt_of_lt_of_le ?_ hmid⟩
    · exact mul_le_mul_of_nonneg_right (by linarith) hpos.le
    · have hless : (x.significand : ℚ) ≤ 2 ^ 53 - 2 := by
        have hbits := hx.bits
        have hle : x.significand + 2 ≤ 2 ^ 53 := by omega
        have hcast : (x.significand : ℚ) + 2 ≤ 2 ^ 53 := by exact_mod_cast hle
        linarith
      exact mul_lt_mul_of_pos_right (by linarith) hpos
  · have hpos : (0 : ℚ) < 2 ^ y.exponent := by positivity
    have hwide : ¬ y.Narrow := by
      rintro ⟨hs, he⟩
      have hfull := hx.full (heq ▸ he)
      omega
    have hstep : (x.significand : ℚ) + 1 ≤ y.significand := by exact_mod_cast hlt
    rw [upper, lower, if_neg hwide, heq]
    refine ⟨mul_le_mul_of_nonneg_right (by linarith) hpos.le, fun hxe hye => ?_⟩
    have hskip : (x.significand : ℚ) + 2 ≤ y.significand := by
      exact_mod_cast (show x.significand + 2 ≤ y.significand by omega)
    exact mul_lt_mul_of_pos_right (by linarith) hpos

theorem not_covers_of_covers {x y : Magnitude} (hx : x.Canonical) (hy : y.Canonical)
    (h : x.exponent < y.exponent ∨ x.exponent = y.exponent ∧ x.significand < y.significand)
    {v : ℚ} (hxv : x.Covers v) : ¬ y.Covers v := by
  intro hyv
  obtain ⟨hle, hlt⟩ := upper_le_lower hx hy h
  have hxle := hxv.le_upper
  have hyle := hyv.lower_le
  by_cases hxe : x.significand % 2 = 0
  · by_cases hye : y.significand % 2 = 0
    · linarith [hlt hxe hye]
    · linarith [(hyv.lt hye).1]
  · linarith [(hxv.lt hxe).2]

/-- A number rounds to one magnitude only. -/
theorem eq_of_covers {x y : Magnitude} (hx : x.Canonical) (hy : y.Canonical) {v : ℚ}
    (hxv : x.Covers v) (hyv : y.Covers v) : x = y := by
  rcases lt_trichotomy x.exponent y.exponent with hlt | heq | hgt
  · exact absurd hyv (not_covers_of_covers hx hy (Or.inl hlt) hxv)
  · rcases lt_trichotomy x.significand y.significand with hlt | hsame | hgt
    · exact absurd hyv (not_covers_of_covers hx hy (Or.inr ⟨heq, hlt⟩) hxv)
    · cases x
      cases y
      cases heq
      cases hsame
      rfl
    · exact absurd hxv (not_covers_of_covers hy hx (Or.inr ⟨heq.symm, hgt⟩) hyv)
  · exact absurd hxv (not_covers_of_covers hy hx (Or.inl hgt) hyv)

/-! ## The decimal order -/

theorem ten_zpow_le_two_zpow_of_slope {m n : Nat} {b k : Int} (hn : n ≠ 0)
    (hslope : (10 : ℚ) ^ (m * b) ≤ 2 ^ (n * b)) (hk : k * n ≤ m * b) : (10 : ℚ) ^ k ≤ 2 ^ b := by
  have hroot : ((10 : ℚ) ^ k) ^ n ≤ (2 ^ b) ^ n := by
    calc ((10 : ℚ) ^ k) ^ n = 10 ^ (k * n) := by rw [zpow_mul, zpow_natCast]
      _ ≤ 10 ^ (m * b) := zpow_le_zpow_right₀ (by norm_num) hk
      _ ≤ 2 ^ (n * b) := hslope
      _ = (2 ^ b) ^ n := by rw [mul_comm, zpow_mul, zpow_natCast]
  exact le_of_pow_le_pow_left₀ hn (by positivity) hroot

/-- The fraction by which a binary order becomes a decimal one is so close to the logarithm of
two that it is wrong by no more than one. -/
theorem ten_zpow_le_two_zpow {b : Int} (hlow : -2000 ≤ b) (hhigh : b ≤ 2000) :
    (10 : ℚ) ^ (b * 30103 / 100000 - 1) ≤ 2 ^ b := by
  rcases Int.le_total 0 b with hb | hb
  · refine ten_zpow_le_two_zpow_of_slope (show 196 ≠ 0 by decide) (m := 59) ?_ (by omega)
    rw [zpow_mul, zpow_mul]
    exact zpow_le_zpow_left₀ hb (by norm_num) (by norm_num)
  · refine ten_zpow_le_two_zpow_of_slope (show 93 ≠ 0 by decide) (m := 28) ?_ (by omega)
    obtain ⟨c, rfl⟩ : ∃ c : Nat, b = -c := ⟨(-b).toNat, by omega⟩
    rw [zpow_mul, zpow_mul, zpow_neg, zpow_neg, zpow_natCast _ c, zpow_natCast _ c]
    refine inv_anti₀ (by positivity) (pow_le_pow_left₀ (by positivity) ?_ c)
    norm_num

theorem num_div_den (x : Magnitude) : (x.num / x.den : ℚ) = x.toRat := by
  have htwo := zpow_mul_toNat_neg (show (2 : ℚ) ≠ 0 by norm_num) x.exponent
  have hden : (2 : ℚ) ^ (-x.exponent).toNat ≠ 0 := by positivity
  simp only [num, den, Nat.pow_eq, Nat.cast_mul, Nat.cast_pow, Nat.cast_ofNat, toRat]
  rw [div_eq_iff hden, ← htwo]
  ring

theorem den_ne_zero (x : Magnitude) : x.den ≠ 0 := Nat.ne_of_gt x.den_pos

theorem num_ne_zero {x : Magnitude} (hx : x.significand ≠ 0) : x.num ≠ 0 :=
  Nat.mul_ne_zero hx (Nat.ne_of_gt (Nat.pow_pos (by decide)))

theorem binaryOrder_range {x : Magnitude} (hx : x.Canonical) :
    -1075 ≤ binaryOrder x.num x.den ∧ binaryOrder x.num x.den ≤ 1023 := by
  have hleast := hx.minExponent_le
  have hmost := hx.le_maxExponent
  rw [minExponent] at hleast
  rw [maxExponent] at hmost
  have hden : x.den.log2 ≤ 1074 := by
    rw [den, Nat.pow_eq, Nat.log2_two_pow]
    omega
  have hnum : x.num.log2 < 1024 := by
    by_cases hzero : x.num = 0
    · rw [hzero]
      decide
    · refine (Nat.log2_lt hzero).mpr ?_
      calc x.significand * 2 ^ x.exponent.toNat < 2 ^ 53 * 2 ^ x.exponent.toNat :=
            Nat.mul_lt_mul_of_pos_right hx.bits (Nat.two_pow_pos _)
        _ = 2 ^ (53 + x.exponent.toNat) := (Nat.pow_add _ _ _).symm
        _ ≤ 2 ^ 1024 := Nat.pow_le_pow_right (by decide) (by omega)
  simp only [binaryOrder]
  split <;> omega

/-- The decimal order is not too large. -/
theorem ten_zpow_decimalOrder_le {x : Magnitude} (hx : x.Canonical) (hzero : x.significand ≠ 0) :
    (10 : ℚ) ^ decimalOrder x.num x.den ≤ x.toRat := by
  have hholds {k : Int} (h : x.den * 10 ^ k.toNat ≤ x.num * 10 ^ (-k).toNat) :
      (10 : ℚ) ^ k ≤ x.toRat := by
    have hle := (mul_pow_le_iff (b := 10) (by decide) x.num x.den_ne_zero 1 k).mp
      (by rwa [Nat.mul_one])
    rw [num_div_den] at hle
    simpa using hle
  rw [decimalOrder]
  simp only [decide_eq_true_eq]
  split
  · next h => exact hholds h
  · split
    · next h => exact hholds h
    · have hbinary : (2 : ℚ) ^ binaryOrder x.num x.den ≤ x.toRat := by
        rw [← num_div_den]
        exact (binaryOrder_bounds (num_ne_zero hzero) x.den_ne_zero).1
      obtain ⟨hlow, hhigh⟩ := binaryOrder_range hx
      exact le_trans (ten_zpow_le_two_zpow (by omega) (by omega)) hbinary

/-! ## The search succeeds -/

theorem lower_lt (x : Magnitude) : x.lower < x.toRat := by
  refine mul_lt_mul_of_pos_right ?_ (by positivity)
  split <;> linarith

theorem lt_upper (x : Magnitude) : x.toRat < x.upper :=
  mul_lt_mul_of_pos_right (by linarith) (by positivity)

/-- The interval of a magnitude is wider than a step of the grid of seventeen digits. -/
theorem lt_width {x : Magnitude} (hx : x.Canonical) : x.toRat / 10 ^ 16 < x.upper - x.lower := by
  have hpos : (0 : ℚ) < 2 ^ x.exponent := by positivity
  have hwidth : x.upper - x.lower = (if x.Narrow then 3 / 4 else 1) * 2 ^ x.exponent := by
    rw [upper, lower]
    split <;> ring
  rw [hwidth, toRat, div_lt_iff₀ (by norm_num), mul_right_comm]
  refine mul_lt_mul_of_pos_right ?_ hpos
  split
  · next hnarrow =>
      rw [hnarrow.1]
      norm_num
  · have hbits : (x.significand : ℚ) < 2 ^ 53 := by exact_mod_cast hx.bits
    refine lt_trans hbits ?_
    norm_num

/-- A quotient lies between its neighbours on a grid. -/
theorem grid_bounds (num : Nat) {den : Nat} (hden : den ≠ 0) (unit : Int) {n : Nat}
    (hn : n = num * Nat.pow 10 (-unit).toNat / (den * Nat.pow 10 unit.toNat)) :
    n * (10 : ℚ) ^ unit ≤ num / den ∧ (num / den : ℚ) < (n + 1) * 10 ^ unit := by
  have hgrid : 0 < den * 10 ^ unit.toNat := by positivity
  rw [Nat.pow_eq, Nat.pow_eq] at hn
  have hlow : den * 10 ^ unit.toNat * n ≤ num * 10 ^ (-unit).toNat :=
    hn ▸ Nat.mul_div_le _ _
  have hhigh : ¬ den * 10 ^ unit.toNat * (n + 1) ≤ num * 10 ^ (-unit).toNat := by
    rw [Nat.mul_comm, ← Nat.le_div_iff_mul_le hgrid, ← hn]
    exact Nat.not_succ_le_self n
  rw [mul_pow_le_iff (by decide) num hden] at hlow hhigh
  push_cast at hlow hhigh
  exact ⟨hlow, not_le.mp hhigh⟩

theorem readsBack_of_decimalOf? {x : Magnitude} {order : Int} {count : Nat} {d : Decimal}
    (h : x.decimalOf? order count = some d) : x.readsBack d = true := by
  simp only [decimalOf?] at h
  split at h
  · cases h
  · next hbelow _ =>
      cases h
      exact hbelow
  · next hbelow habove =>
      cases h
      exact habove
  · next hbelow habove =>
      cases h
      rcases roundDiv_cases (x.num * Nat.pow 10 (-(order - (count : Int) + 1)).toNat)
        (x.den * Nat.pow 10 (order - (count : Int) + 1).toNat) with hround | hround
      · rw [hround]
        exact hbelow
      · rw [hround]
        exact habove

/-- Seventeen digits suffice. -/
theorem decimalOf?_seventeen_ne_none {x : Magnitude} (hx : x.Canonical)
    (hzero : x.significand ≠ 0) :
    x.decimalOf? (decimalOrder x.num x.den) 17 ≠ none := by
  obtain ⟨unit, hunit⟩ : ∃ unit, unit = decimalOrder x.num x.den - 16 := ⟨_, rfl⟩
  obtain ⟨n, hn⟩ : ∃ n, n = x.num * Nat.pow 10 (-unit).toNat / (x.den * Nat.pow 10 unit.toNat) :=
    ⟨_, rfl⟩
  obtain ⟨hbelow, habove⟩ := grid_bounds x.num x.den_ne_zero unit hn
  rw [num_div_den] at hbelow habove
  have hstep : (10 : ℚ) ^ unit < x.upper - x.lower := by
    refine lt_of_le_of_lt ?_ (lt_width hx)
    rw [hunit, zpow_sub₀ (by norm_num)]
    exact div_le_div_of_nonneg_right (ten_zpow_decimalOrder_le hx hzero) (by norm_num)
  have hcovers : x.readsBack (.ofGrid 17 n unit) = true ∨
      x.readsBack (.ofGrid 17 (n + 1) unit) = true := by
    rw [readsBack_iff hzero, readsBack_iff hzero, Decimal.toRat_ofGrid (by decide),
      Decimal.toRat_ofGrid (by decide)]
    push_cast
    rcases lt_or_ge x.lower (n * (10 : ℚ) ^ unit) with hinside | houtside
    · exact Or.inl (covers_of_lt hinside (lt_of_le_of_lt hbelow x.lt_upper))
    · refine Or.inr (covers_of_lt (lt_trans x.lower_lt habove) ?_)
      linarith
  have hsame : decimalOrder x.num x.den - ((17 : Nat) : Int) + 1 = unit := by
    rw [hunit]
    push_cast
    ring
  intro hnone
  simp only [decimalOf?, hsame, ← hn] at hnone
  split at hnone
  · next hbelow habove =>
      rw [hbelow, habove] at hcovers
      exact absurd hcovers (by decide)
  all_goals cases hnone

/-- The shortest decimal rounds to the magnitude it is for. -/
theorem covers_shortest {x : Magnitude} (hx : x.Canonical) (hzero : x.significand ≠ 0) :
    x.Covers x.shortest.toRat := by
  rw [← readsBack_iff hzero, shortest]
  cases hfind : ((List.range 17).map (· + 1)).findSome?
      (x.decimalOf? (decimalOrder x.num x.den)) with
  | none =>
      rw [List.findSome?_eq_none_iff] at hfind
      exact absurd (hfind 17 (by decide)) (decimalOf?_seventeen_ne_none hx hzero)
  | some d =>
      obtain ⟨count, -, hcount⟩ := List.exists_of_findSome?_eq_some hfind
      exact readsBack_of_decimalOf? hcount

/-- A magnitude can be told from its shortest decimal. -/
theorem eq_of_toRat_shortest_eq {x y : Magnitude} (hx : x.Canonical) (hy : y.Canonical)
    (hxzero : x.significand ≠ 0) (hyzero : y.significand ≠ 0)
    (h : x.shortest.toRat = y.shortest.toRat) : x = y :=
  eq_of_covers hx hy (covers_shortest hx hxzero) (h ▸ covers_shortest hy hyzero)

end Magnitude

end Stencil
