import Stencil.Json.Basic

/-!
# Reading numbers

A number's text is first taken apart by the grammar of JSON: an optional minus, a
whole part without leading zeros, an optional fraction and an optional exponent,
each with at least one digit. Then it is given a value.

Digits are absorbed into a 64-bit significand from the left. Where the next digit
no longer fits, the rest of the whole part only raises the exponent and the rest
of the fraction is ignored. A text without fraction and exponent whose digits all
fit is an integer, except that minus zero is a double and that a negative one must
reach no lower than -2^63. Every other text is a double: the significand is
rounded to a double and then multiplied or divided, with one more rounding, by a
double power of ten; below 10^-308 it is divided by 10^308 first, as often as
needed. A result too large for a double makes the text no number at all.
-/

namespace Stencil.Json.Number

/-- A number's text, taken apart; digits are kept as their values. -/
structure Parts where
  negative : Bool
  whole : List Nat
  /-- Empty when there is no fraction. -/
  fraction : List Nat
  /-- The sign (true for minus) and the digits of the exponent. -/
  exponent : Option (Bool × List Nat)
  deriving DecidableEq, Repr

/-- The leading digits of a text and what follows them. -/
def digits : List Char → List Nat × List Char
  | [] => ([], [])
  | c :: cs =>
      if c.isDigit then
        let (ds, rest) := digits cs
        ((c.toNat - '0'.toNat) :: ds, rest)
      else ([], c :: cs)

/-- The exponent a text consists of; none of it may be left over. -/
def exponentPart : List Char → Option (Option (Bool × List Nat))
  | [] => some none
  | e :: cs =>
      if e = 'e' ∨ e = 'E' then
        let (negative, cs) : Bool × List Char :=
          match cs with
          | '-' :: rest => (true, rest)
          | '+' :: rest => (false, rest)
          | _ => (false, cs)
        match digits cs with
        | ([], _) => none
        | (ds, []) => some (some (negative, ds))
        | (_, _ :: _) => none
      else none

/-- Takes a text apart by the grammar of numbers. -/
def Parts.ofText? (text : List Char) : Option Parts :=
  let (negative, unsigned) : Bool × List Char :=
    match text with
    | '-' :: rest => (true, rest)
    | _ => (false, text)
  match digits unsigned with
  | ([], _) => none
  | (0 :: _ :: _, _) => none
  | (whole, '.' :: rest) =>
      match digits rest with
      | ([], _) => none
      | (fraction, rest) => (exponentPart rest).map fun e => ⟨negative, whole, fraction, e⟩
  | (whole, rest) => (exponentPart rest).map fun e => ⟨negative, whole, [], e⟩

/-- The largest significand. -/
def maxSignificand : Nat := Nat.pow 2 64 - 1

/-- Appends digits to a significand while it stays in range; gives the digits left over. -/
def absorb (significand : Nat) : List Nat → Nat × List Nat
  | [] => (significand, [])
  | d :: ds =>
      if maxSignificand < significand * 10 + d then (significand, d :: ds)
      else absorb (significand * 10 + d) ds

/-- The number a list of decimal digits denotes. -/
def ofDigits (ds : List Nat) : Nat := ds.foldl (fun n d => n * 10 + d) 0

/-- The largest power of ten by which a double is scaled in one step. -/
def maxScale : Nat := 308

/-- The double nearest to a power of ten up to `10 ^ 308`. -/
def powerOfTen (k : Nat) : Magnitude := (Magnitude.nearest? (Nat.pow 10 k) 1).getD .zero

/-- Divides by `10 ^ 308`, `rounds` times or until zero is reached. -/
def shrink : (rounds : Nat) → Magnitude → Magnitude
  | 0, x => x
  | rounds + 1, x =>
      if x.isZero then x else shrink rounds ((x.div? (powerOfTen maxScale)).getD .zero)

/-- The magnitude `x · 10 ^ exponent`, scaled as the module's header says. -/
def scale (x : Magnitude) (exponent : Int) : Option Magnitude :=
  match exponent with
  | .ofNat k =>
      if k ≤ maxScale then x.mul? (powerOfTen k) else if x.isZero then some x else none
  | .negSucc k =>
      let rounds := k / maxScale
      (shrink rounds x).div? (powerOfTen (k + 1 - rounds * maxScale))

/-- The value of a number taken apart. -/
def ofParts (p : Parts) : Option Number :=
  let (lead, dropped) := absorb 0 p.whole
  match p.fraction, p.exponent, dropped with
  | [], none, [] =>
      if p.negative then
        if lead = 0 ∨ Nat.pow 2 63 < lead then
          (Magnitude.nearest? lead 1).map fun x => .double ⟨true, x⟩
        else some (.integer (-(lead : Int)))
      else some (.integer lead)
  | _, _, _ =>
      let (significand, ignored) := absorb lead p.fraction
      let place : Int := (dropped.length : Int) - ((p.fraction.length : Int) - ignored.length)
      let exponent : Int :=
        match p.exponent with
        | none => place
        | some (true, ds) => place - ofDigits ds
        | some (false, ds) => place + ofDigits ds
      do
        let x ← Magnitude.nearest? significand 1
        let x ← scale x exponent
        return .double ⟨p.negative, x⟩

/-- The number a text denotes, if it is one. -/
def ofText? (text : List Char) : Option Number := (Parts.ofText? text).bind ofParts

end Stencil.Json.Number
