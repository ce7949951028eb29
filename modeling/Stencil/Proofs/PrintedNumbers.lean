import Mathlib.Tactic.FieldSimp
import Mathlib.Tactic.IntervalCases
import Stencil.Json.Printer
import Stencil.Proofs.Numerals
import Stencil.Proofs.ShortestDecimals

/-!
# A number can be told from its text

What is printed for a number is a number of the grammar, and the grammar takes a text apart in
one way only. The parts of a printed integer have neither a fraction nor an exponent, those of
a printed double have one of them, and all digits with the exponent make up the number that was
printed: an integer itself, a double's shortest decimal wherever its point is put
(`spelled_text`).

Doubles are in the form they are kept in. Everything that is read is in that form
(`canonical_of_ofText?`). An integer of 64 bits is read back from its text (`ofText?_text`).
-/

namespace Stencil

namespace Json.Number

/-- Whether a number is in the form that it is kept in. -/
def Canonical : Number → Prop
  | .integer _ => True
  | .double x => x.magnitude.Canonical

theorem canonical_of_scale {x y : Magnitude} (hx : x.Canonical) {exponent : Int}
    (h : scale x exponent = some y) : y.Canonical := by
  match exponent with
  | .ofNat k =>
      simp only [scale] at h
      split at h
      · exact Magnitude.canonical_of_mul? h
      · split at h
        · cases h
          exact hx
        · cases h
  | .negSucc k => exact Magnitude.canonical_of_div? h

/-- What is read is in its form. -/
theorem canonical_of_ofText? {text : List Char} {n : Number} (h : ofText? text = some n) :
    n.Canonical := by
  obtain ⟨p, -, hp⟩ := Option.bind_eq_some_iff.mp h
  simp only [ofParts] at hp
  split at hp
  · split at hp
    · split at hp
      · obtain ⟨x, hx, rfl⟩ := Option.map_eq_some_iff.mp hp
        exact Magnitude.canonical_of_nearest? Nat.one_ne_zero hx
      · cases hp
        trivial
    · cases hp
      trivial
  · obtain ⟨x, hx, hp⟩ := Option.bind_eq_some_iff.mp hp
    obtain ⟨y, hy, hp⟩ := Option.bind_eq_some_iff.mp hp
    cases hp
    exact canonical_of_scale (Magnitude.canonical_of_nearest? Nat.one_ne_zero hx) hy

/-! ## What the parts of a number make up -/

/-- The exponent of a number taken apart. -/
def Parts.power (p : Parts) : Int :=
  match p.exponent with
  | none => 0
  | some (true, ds) => -ofDigits ds
  | some (false, ds) => ofDigits ds

/-- The size of the number that is taken apart, without any rounding. -/
def Parts.toRat (p : Parts) : ℚ :=
  ofDigits (p.whole ++ p.fraction) * 10 ^ (p.power - p.fraction.length)

/-- Whether a number is written as an integer. -/
def Parts.IsInteger (p : Parts) : Prop := p.fraction = [] ∧ p.exponent = none

/-- The values of digits. -/
def digitValues (cs : List Char) : List Nat := cs.map fun c => c.toNat - '0'.toNat

theorem ofDigits_digitValues (cs : List Char) :
    ofDigits (digitValues cs) = Nat.ofDigitChars 10 cs 0 := by
  rw [ofDigits, digitValues, List.foldl_map, Nat.ofDigitChars_eq_foldl]
  simp only [Nat.mul_comm]

theorem digitValues_append (cs ds : List Char) :
    digitValues (cs ++ ds) = digitValues cs ++ digitValues ds := List.map_append

theorem length_digitValues (cs : List Char) : (digitValues cs).length = cs.length :=
  List.length_map _

theorem digits_digitValues {cs : List Char} (hne : cs ≠ []) (h : ∀ c ∈ cs, c.isDigit = true) :
    Grammar.Digits (digitValues cs) cs := by
  induction cs with
  | nil => exact absurd rfl hne
  | cons c cs ih =>
      obtain ⟨hc, hcs⟩ := List.forall_mem_cons.mp h
      cases cs with
      | nil => exact .one hc
      | cons c' cs => exact .cons hc (ih (List.cons_ne_nil _ _) hcs)

/-- The text of a number has one size and one sign. -/
theorem parts_unique {p q : Parts} {cs : List Char} (hp : Grammar.Number p cs)
    (hq : Grammar.Number q cs) : p = q :=
  Option.some.inj ((Grammar.ofText?_eq_some_iff.mpr hp).symm.trans
    (Grammar.ofText?_eq_some_iff.mpr hq))

end Json.Number

open Json.Number in
/-- Whether a text is a number with a fraction or an exponent, of this size and without a
sign. -/
def Spelled (size : ℚ) (cs : List Char) : Prop :=
  ∃ p, Grammar.Number p cs ∧ p.negative = false ∧ ¬ p.IsInteger ∧ p.toRat = size

open Json Json.Number

theorem whole_digitValues {cs : List Char} (hne : cs ≠ []) (hdigits : ∀ c ∈ cs, c.isDigit = true)
    (hzero : ∀ tail, cs = '0' :: tail → tail = []) : Grammar.Whole (digitValues cs) cs := by
  refine ⟨digits_digitValues hne hdigits, fun hhead => ?_⟩
  obtain ⟨c, cs, rfl⟩ := List.exists_cons_of_ne_nil hne
  have hc : c = '0' := by
    have hdigit := hdigits c List.mem_cons_self
    have hval : c.toNat - '0'.toNat = 0 := by simpa [digitValues] using hhead
    rw [Char.isDigit, Bool.and_eq_true, decide_eq_true_iff, decide_eq_true_iff] at hdigit
    refine Char.toNat_inj.mp (Nat.le_antisymm (Nat.le_of_sub_eq_zero hval) ?_)
    exact UInt32.le_iff_toNat_le.mp hdigit.1
  rw [hzero cs (by rw [hc]), hc]
  rfl

/-- A fraction without an exponent. -/
theorem spelled_point {whole fraction : List Char} {size : ℚ} (hwhole : whole ≠ [])
    (hwholeDigits : ∀ c ∈ whole, c.isDigit = true)
    (hzero : ∀ tail, whole = '0' :: tail → tail = []) (hfraction : fraction ≠ [])
    (hfractionDigits : ∀ c ∈ fraction, c.isDigit = true)
    (hsize : Nat.ofDigitChars 10 (whole ++ fraction) 0 * 10 ^ (-(fraction.length : Int)) = size) :
    Spelled size (whole ++ '.' :: fraction) := by
  refine ⟨⟨false, digitValues whole, digitValues fraction, none⟩, ?_, rfl, ?_, ?_⟩
  · have hnumber := Grammar.Number.positive (whole_digitValues hwhole hwholeDigits hzero)
      (.some (digits_digitValues hfraction hfractionDigits)) .none
    rwa [List.append_nil] at hnumber
  · rintro ⟨hnone, -⟩
    exact hfraction (List.map_eq_nil_iff.mp hnone)
  · rw [Parts.toRat, ← digitValues_append, ofDigits_digitValues, length_digitValues, Parts.power,
      zero_sub, hsize]

/-- A single digit, perhaps with a fraction, and an exponent. -/
theorem spelled_exponent {c : Char} {cs power : List Char} {order : Int} {size : ℚ}
    (hc : c.isDigit = true) (hcs : ∀ c ∈ cs, c.isDigit = true) (hne : power ≠ [])
    (hpower : ∀ c ∈ power, c.isDigit = true) (horder : Nat.ofDigitChars 10 power 0 = order.natAbs)
    (hsize : Nat.ofDigitChars 10 (c :: cs) 0 * 10 ^ (order - cs.length) = size) :
    Spelled size ([c] ++ (if cs.isEmpty then [] else '.' :: cs) ++
      'e' :: (if order < 0 then '-' else '+') :: power) := by
  have hwhole : Grammar.Whole (digitValues [c]) [c] :=
    whole_digitValues (by simp) (by simpa using hc) (by simp)
  have hfraction : Grammar.Fraction (digitValues cs) (if cs.isEmpty then [] else '.' :: cs) := by
    cases cs with
    | nil => exact .none
    | cons c' cs => exact .some (digits_digitValues (List.cons_ne_nil _ _) hcs)
  have hexponent : Grammar.Exponent (some (decide (order < 0), digitValues power))
      ('e' :: (if order < 0 then '-' else '+') :: power) := by
    have hpowerDigits := digits_digitValues hne hpower
    split
    · next hnegative =>
        rw [decide_eq_true hnegative]
        exact .minus (Or.inl rfl) hpowerDigits
    · next hpositive =>
        rw [decide_eq_false hpositive]
        exact .plus (Or.inl rfl) hpowerDigits
  refine ⟨⟨false, digitValues [c], digitValues cs,
    some (decide (order < 0), digitValues power)⟩, ?_, rfl, ?_, ?_⟩
  · rw [List.append_assoc]
    exact .positive hwhole hfraction hexponent
  · rintro ⟨-, hnone⟩
    cases hnone
  · have hvalue : Parts.power ⟨false, digitValues [c], digitValues cs,
        some (decide (order < 0), digitValues power)⟩ = order := by
      by_cases hnegative : order < 0
      · simp only [Parts.power, hnegative, decide_true, ofDigits_digitValues, horder]
        omega
      · simp only [Parts.power, hnegative, decide_false, ofDigits_digitValues, horder]
        omega
    rw [Parts.toRat, hvalue, ← digitValues_append, ofDigits_digitValues, length_digitValues,
      List.singleton_append, hsize]

theorem first_toDigits_ne_zero {n : Nat} (h : 0 < n) :
    ∃ c cs, Nat.toDigits 10 n = c :: cs ∧ c ≠ '0' := by
  induction n using Nat.strongRecOn with
  | ind n ih =>
      rcases Nat.lt_or_ge n 10 with hlt | hge
      · refine ⟨Nat.digitChar n, [], Nat.toDigits_of_lt_base hlt, ?_⟩
        interval_cases n <;> decide
      · obtain ⟨c, cs, htext, hc⟩ := ih (n / 10) (by omega) (by omega)
        exact ⟨c, cs ++ [Nat.digitChar (n % 10)], by
          rw [Nat.toDigits_of_base_le (by decide) hge, htext, List.cons_append], hc⟩

theorem isDigit_of_mem_toDigits (n : Nat) : ∀ c ∈ Nat.toDigits 10 n, c.isDigit = true :=
  fun _ => Nat.isDigit_of_mem_toDigits (by decide) (by decide)

theorem isDigit_of_mem_replicate (n : Nat) : ∀ c ∈ List.replicate n '0', c.isDigit = true := by
  intro c hc
  rw [List.eq_of_mem_replicate hc]
  rfl

/-- The digits of a positive number, without a zero in front. -/
structure Numeral (ds : List Char) (n : Nat) : Prop where
  digits : ∀ c ∈ ds, c.isDigit = true
  ne_nil : ds ≠ []
  first : ∀ tail, ds ≠ '0' :: tail
  value : Nat.ofDigitChars 10 ds 0 = n

theorem numeral_toDigits {n : Nat} (h : 0 < n) : Numeral (Nat.toDigits 10 n) n where
  digits := isDigit_of_mem_toDigits n
  ne_nil := Nat.toDigits_ne_nil
  first tail htail := by
    obtain ⟨c, cs, htext, hc⟩ := first_toDigits_ne_zero h
    rw [htail] at htext
    cases htext
    exact hc rfl
  value := Nat.ofDigitChars_ten_toDigits

namespace Numeral

variable {ds : List Char} {n : Nat}

/-- One digit in front of the point, and an exponent. -/
theorem spelled_scientific (h : Numeral ds n) (order : Int) :
    Spelled (n * 10 ^ (order + 1 - ds.length))
      (ds.take 1 ++ (if (ds.drop 1).isEmpty then [] else '.' :: ds.drop 1) ++
        'e' :: (if order < 0 then '-' else '+') :: Nat.toDigits 10 order.natAbs) := by
  obtain ⟨c, cs, rfl⟩ := List.exists_cons_of_ne_nil h.ne_nil
  obtain ⟨hc, hcs⟩ := List.forall_mem_cons.mp h.digits
  rw [List.take_succ_cons, List.take_zero, List.drop_succ_cons, List.drop_zero]
  refine spelled_exponent hc hcs Nat.toDigits_ne_nil (isDigit_of_mem_toDigits _)
    Nat.ofDigitChars_ten_toDigits ?_
  rw [h.value, List.length_cons]
  push_cast
  congr 2
  ring

/-- All digits behind the point, with zeros before them. -/
theorem spelled_below (h : Numeral ds n) (zeros : Nat) :
    Spelled (n * 10 ^ (-((zeros + ds.length : Nat) : Int)))
      ('0' :: '.' :: List.replicate zeros '0' ++ ds) := by
  have hvalue : Nat.ofDigitChars 10 (['0'] ++ (List.replicate zeros '0' ++ ds)) 0 = n := by
    rw [List.singleton_append, Nat.ofDigitChars_cons, Nat.ofDigitChars_append,
      Nat.ofDigitChars_replicate_zero]
    simpa using h.value
  show Spelled _ (['0'] ++ '.' :: (List.replicate zeros '0' ++ ds))
  refine spelled_point (by simp) (by simp) (by simp) ?_ ?_ ?_
  · exact List.append_ne_nil_of_right_ne_nil _ h.ne_nil
  · exact List.forall_mem_append.mpr ⟨isDigit_of_mem_replicate _, h.digits⟩
  · rw [hvalue, List.length_append, List.length_replicate]

/-- The point stands between two of the digits. -/
theorem spelled_between (h : Numeral ds n) {before : Nat} (hpos : 0 < before)
    (hlt : before < ds.length) :
    Spelled (n * 10 ^ (-((ds.length - before : Nat) : Int)))
      (ds.take before ++ '.' :: ds.drop before) := by
  refine spelled_point ?_ (fun c hc => h.digits c (List.mem_of_mem_take hc)) ?_ ?_
    (fun c hc => h.digits c (List.mem_of_mem_drop hc)) ?_
  · exact List.ne_nil_of_length_pos (by rw [List.length_take]; omega)
  · intro tail htail
    have hds := List.take_append_drop before ds
    rw [htail, List.cons_append] at hds
    exact absurd hds.symm (h.first _)
  · exact List.ne_nil_of_length_pos (by rw [List.length_drop]; omega)
  · rw [List.take_append_drop, h.value, List.length_drop]

/-- All digits before the point, with zeros behind them. -/
theorem spelled_above (h : Numeral ds n) (zeros : Nat) :
    Spelled (n * 10 ^ zeros) (ds ++ List.replicate zeros '0' ++ ['.', '0']) := by
  refine spelled_point ?_ ?_ ?_ (List.cons_ne_nil _ _) (by simp) ?_
  · exact List.append_ne_nil_of_left_ne_nil h.ne_nil _
  · exact List.forall_mem_append.mpr ⟨h.digits, isDigit_of_mem_replicate _⟩
  · intro tail htail
    obtain ⟨c, cs, rfl⟩ := List.exists_cons_of_ne_nil h.ne_nil
    rw [List.cons_append] at htail
    cases htail
    exact absurd rfl (h.first cs)
  · have hdigits : Nat.ofDigitChars 10 (ds ++ List.replicate zeros '0' ++ ['0']) 0 =
        10 * (10 ^ zeros * n) := by
      rw [Nat.ofDigitChars_append, Nat.ofDigitChars_append, h.value,
        Nat.ofDigitChars_replicate_zero, Nat.ofDigitChars_cons, Nat.ofDigitChars_nil]
      simp
    rw [hdigits, List.length_singleton]
    push_cast
    field_simp

end Numeral

/-- A decimal is spelled by its text. -/
theorem spelled_text {d : Decimal} (hpos : 0 < d.digits) : Spelled d.toRat (Decimal.text d) := by
  obtain ⟨ds, hds⟩ : ∃ ds, ds = Nat.toDigits 10 d.digits := ⟨_, rfl⟩
  obtain ⟨order, horder⟩ : ∃ order : Int, order = d.exponent + ds.length - 1 := ⟨_, rfl⟩
  have hnumeral : Numeral ds d.digits := hds ▸ numeral_toDigits hpos
  have hlength : 0 < ds.length := List.length_pos_iff.mpr hnumeral.ne_nil
  have hexponent : d.exponent = order + 1 - ds.length := by omega
  simp only [Decimal.text, ← hds, ← horder]
  rw [Decimal.toRat, hexponent]
  split
  · exact hnumeral.spelled_scientific order
  · split
    · have hpower : order + 1 - ds.length = -((order.natAbs - 1 + ds.length : Nat) : Int) := by
        omega
      rw [hpower]
      exact hnumeral.spelled_below _
    · split
      · have hpower : order + 1 - ds.length = -((ds.length - (order.toNat + 1) : Nat) : Int) := by
          omega
        rw [hpower]
        exact hnumeral.spelled_between (by omega) (by omega)
      · have hpower : order + 1 - ds.length = ((order.toNat + 1 - ds.length : Nat) : Int) := by
          omega
        rw [hpower, zpow_natCast]
        exact hnumeral.spelled_above _

/-! ## Numbers -/

namespace Magnitude

/-- What is printed of a double with this magnitude, apart from its sign. -/
def printed (x : Magnitude) : ℚ := if x.isZero then 0 else x.shortest.toRat

theorem shortest_pos {x : Magnitude} (hx : x.Canonical) (hzero : x.significand ≠ 0) :
    0 < x.shortest.toRat := by
  have hone : (1 : ℚ) ≤ x.significand := by exact_mod_cast Nat.one_le_iff_ne_zero.mpr hzero
  have hlower : 0 < x.lower := by
    refine mul_pos ?_ (by positivity)
    split <;> linarith
  exact lt_of_lt_of_le hlower (covers_shortest hx hzero).lower_le

theorem shortest_digits_pos {x : Magnitude} (hx : x.Canonical) (hzero : x.significand ≠ 0) :
    0 < x.shortest.digits := by
  have hpos := shortest_pos hx hzero
  rw [Decimal.toRat] at hpos
  exact_mod_cast pos_of_mul_pos_left hpos (by positivity)

theorem eq_of_printed_eq {x y : Magnitude} (hx : x.Canonical) (hy : y.Canonical)
    (h : x.printed = y.printed) : x = y := by
  have hform {z : Magnitude} (hz : z.Canonical) (hzero : z.significand = 0) : z = .zero := by
    have hmin : z.exponent = minExponent := by
      refine le_antisymm (not_lt.mp fun hlt => ?_) hz.minExponent_le
      have hfull := hz.full hlt
      omega
    cases z
    cases hzero
    cases hmin
    rfl
  simp only [printed, isZero, beq_iff_eq] at h
  by_cases hxzero : x.significand = 0 <;> by_cases hyzero : y.significand = 0
  · rw [hform hx hxzero, hform hy hyzero]
  · rw [if_pos hxzero, if_neg hyzero] at h
    exact absurd h (shortest_pos hy hyzero).ne
  · rw [if_neg hxzero, if_pos hyzero] at h
    exact absurd h (shortest_pos hx hxzero).ne'
  · rw [if_neg hxzero, if_neg hyzero] at h
    exact eq_of_toRat_shortest_eq hx hy hxzero hyzero h

end Magnitude

theorem Grammar.Number.minus {p : Parts} {cs : List Char} (h : Grammar.Number p cs)
    (hsign : p.negative = false) : Grammar.Number { p with negative := true } ('-' :: cs) := by
  cases h with
  | positive hwhole hfraction hexponent => exact .negative hwhole hfraction hexponent
  | negative hwhole hfraction hexponent => cases hsign

namespace Json.Number

/-- What the parts of a printed number are. -/
def PartsOf : Json.Number → Parts → Prop
  | .integer n, p => p.IsInteger ∧ p.negative = decide (n < 0) ∧ p.toRat = n.natAbs
  | .double x, p => ¬ p.IsInteger ∧ p.negative = x.negative ∧ p.toRat = x.magnitude.printed

theorem number_toDigits (n : Nat) :
    ∃ p, Grammar.Number p (Nat.toDigits 10 n) ∧ p.negative = false ∧ p.IsInteger ∧ p.toRat = n := by
  refine ⟨⟨false, digitValues (Nat.toDigits 10 n), [], none⟩, ?_, rfl, ⟨rfl, rfl⟩, ?_⟩
  · have hwhole : Grammar.Whole (digitValues (Nat.toDigits 10 n)) (Nat.toDigits 10 n) := by
      refine whole_digitValues Nat.toDigits_ne_nil (isDigit_of_mem_toDigits n) fun tail htail => ?_
      rcases Nat.eq_zero_or_pos n with rfl | hpos
      · rw [Nat.toDigits_zero] at htail
        cases htail
        rfl
      · obtain ⟨c, cs, htext, hc⟩ := first_toDigits_ne_zero hpos
        rw [htext] at htail
        cases htail
        exact absurd rfl hc
    have hnumber := Grammar.Number.positive hwhole .none .none
    rwa [List.append_nil, List.append_nil] at hnumber
  · simp [Parts.toRat, Parts.power, ofDigits_digitValues, Nat.ofDigitChars_ten_toDigits]

theorem spelled_size {x : Magnitude} (hx : x.Canonical) :
    Spelled x.printed (if x.isZero then ['0', '.', '0'] else Decimal.text x.shortest) := by
  rw [Magnitude.printed]
  split
  · show Spelled 0 (['0'] ++ '.' :: ['0'])
    refine spelled_point (by simp) (by simp) (by simp) (by simp) (by simp) ?_
    rw [show Nat.ofDigitChars 10 (['0'] ++ ['0']) 0 = 0 from rfl, Nat.cast_zero, zero_mul]
  · next hzero =>
      refine spelled_text (Magnitude.shortest_digits_pos hx fun hs => hzero ?_)
      rw [Magnitude.isZero, hs]
      rfl

/-- What is printed for a number is a number, and its parts are those of what is printed. -/
theorem exists_parts_of_text {n : Json.Number} (hn : n.Canonical) :
    ∃ p, Grammar.Number p n.text ∧ n.PartsOf p := by
  cases n with
  | integer n =>
      cases n with
      | ofNat n =>
          obtain ⟨p, hp, hsign, hinteger, hsize⟩ := number_toDigits n
          have hnonneg : decide (Int.ofNat n < 0) = false :=
            decide_eq_false (not_lt.mpr (Int.natCast_nonneg n))
          exact ⟨p, hp, hinteger, hsign.trans hnonneg.symm, hsize⟩
      | negSucc n =>
          obtain ⟨p, hp, hsign, hinteger, hsize⟩ := number_toDigits (n + 1)
          have hnegative : decide (Int.negSucc n < 0) = true :=
            decide_eq_true (Int.negSucc_lt_zero n)
          exact ⟨_, hp.minus hsign, hinteger, hnegative.symm, hsize⟩
  | double x =>
      obtain ⟨p, hp, hsign, hinteger, hsize⟩ := spelled_size hn
      simp only [text, doubleText]
      split
      · next hnegative =>
          exact ⟨_, hp.minus hsign, hinteger, hnegative.symm, hsize⟩
      · next hpositive =>
          exact ⟨p, hp, hinteger, hsign.trans (Bool.eq_false_of_not_eq_true hpositive).symm, hsize⟩

/-- Two numbers are printed differently. -/
theorem eq_of_text_eq {n m : Json.Number} (hn : n.Canonical) (hm : m.Canonical)
    (h : n.text = m.text) : n = m := by
  obtain ⟨p, hp, hpn⟩ := exists_parts_of_text hn
  obtain ⟨q, hq, hqm⟩ := exists_parts_of_text hm
  cases parts_unique (h ▸ hp) hq
  cases n with
  | integer n =>
      cases m with
      | integer m =>
          obtain ⟨-, hsign, hsize⟩ := hpn
          obtain ⟨-, hsign', hsize'⟩ := hqm
          have habs : n.natAbs = m.natAbs := by exact_mod_cast hsize.symm.trans hsize'
          have hnegative : n < 0 ↔ m < 0 := decide_eq_decide.mp (hsign.symm.trans hsign')
          congr 1
          omega
      | double y => exact absurd hpn.1 hqm.1
  | double x =>
      cases m with
      | integer m => exact absurd hqm.1 hpn.1
      | double y =>
          have hmagnitude := Magnitude.eq_of_printed_eq hn hm (hpn.2.2.symm.trans hqm.2.2)
          have hsign : x.negative = y.negative := hpn.2.1.symm.trans hqm.2.1
          cases x
          cases y
          cases hmagnitude
          cases hsign
          rfl

/-! ## Integers that fit -/

/-- Whether a number is an integer from -2^63 to 2^64 - 1. -/
def Fits : Json.Number → Prop
  | .integer n => -(2 ^ 63) ≤ n ∧ n < 2 ^ 64
  | .double _ => False

theorem Fits.canonical {n : Json.Number} (h : n.Fits) : n.Canonical := by
  cases n with
  | integer _ => trivial
  | double _ => exact h.elim

theorem le_foldl_digits (ds : List Nat) (n : Nat) : n ≤ ds.foldl (fun n d => n * 10 + d) n := by
  induction ds generalizing n with
  | nil => exact Nat.le_refl n
  | cons d ds ih => exact Nat.le_trans (by omega) (ih (n * 10 + d))

theorem absorb_of_le {n : Nat} {ds : List Nat}
    (h : ds.foldl (fun n d => n * 10 + d) n ≤ maxSignificand) :
    absorb n ds = (ds.foldl (fun n d => n * 10 + d) n, []) := by
  induction ds generalizing n with
  | nil => rfl
  | cons d ds ih =>
      have hfits : n * 10 + d ≤ maxSignificand := Nat.le_trans (le_foldl_digits ds _) h
      rw [absorb, if_neg (Nat.not_lt.mpr hfits), ih h]
      rfl

/-- The text of an integer that fits is read as that integer. -/
theorem ofText?_text {n : Json.Number} (h : n.Fits) : ofText? n.text = some n := by
  cases n with
  | double x => exact h.elim
  | integer n =>
      obtain ⟨hlow, hhigh⟩ := h
      obtain ⟨⟨negative, whole, fraction, exponent⟩, hp, ⟨hfraction, hexponent⟩, hsign, hsize⟩ :=
        exists_parts_of_text (n := .integer n) trivial
      dsimp only at hfraction hexponent hsign
      subst hfraction hexponent hsign
      have hlead : ofDigits whole = n.natAbs := by
        have hsize : (ofDigits whole : ℚ) = n.natAbs := by
          simpa [Parts.toRat, Parts.power] using hsize
        exact_mod_cast hsize
      have hfits : ofDigits whole ≤ maxSignificand := by
        rw [hlead, show maxSignificand = 2 ^ 64 - 1 from rfl]
        omega
      have habsorb : absorb 0 whole = (n.natAbs, []) := hlead ▸ absorb_of_le hfits
      rw [ofText?, Grammar.ofText?_eq_some_iff.mpr hp, Option.bind_some, ofParts]
      simp only [habsorb]
      by_cases hneg : n < 0
      · rw [if_pos (decide_eq_true hneg), if_neg]
        · congr 2
          omega
        · rw [show Nat.pow 2 63 = 2 ^ 63 from rfl]
          omega
      · rw [if_neg (by simpa using hneg)]
        congr 2
        omega

end Json.Number

end Stencil
