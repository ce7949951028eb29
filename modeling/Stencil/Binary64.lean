/-!
# Finite doubles in exact arithmetic

A magnitude is `significand · 2 ^ exponent` with a significand of at most 53 bits
and an exponent no smaller than -1074. It is kept in one form: either the
significand has exactly 53 bits, or the exponent is -1074. Every operation goes
through `Magnitude.nearest?`, which rounds an exact fraction to the nearest
magnitude, a tie to the even significand, and has no answer where the nearest
one would be too large. No machine arithmetic is involved, so what is computed
can be reasoned about on natural numbers.
-/

namespace Stencil

/-- The quotient rounded to the nearest natural number, a tie to the even one. -/
def roundDiv (num den : Nat) : Nat :=
  let quotient := num / den
  let twice := 2 * (num % den)
  if twice < den then quotient
  else if den < twice then quotient + 1
  else if quotient % 2 = 0 then quotient
  else quotient + 1

/-- The size of a finite double. -/
structure Magnitude where
  significand : Nat
  exponent : Int
  deriving DecidableEq, Repr, Inhabited

namespace Magnitude

/-- The exponent of the smallest magnitudes. -/
def minExponent : Int := -1074

/-- The exponent of the largest magnitudes. -/
def maxExponent : Int := 971

/-- The smallest significand that has all 53 bits. -/
def fullSignificand : Nat := Nat.pow 2 52

def zero : Magnitude := ⟨0, minExponent⟩

def isZero (x : Magnitude) : Bool := x.significand == 0

/-- The numerator of the magnitude as a fraction. -/
def num (x : Magnitude) : Nat := x.significand * Nat.pow 2 x.exponent.toNat

/-- The denominator of the magnitude as a fraction, a power of two. -/
def den (x : Magnitude) : Nat := Nat.pow 2 (-x.exponent).toNat

/-- The exponent `k` with `2 ^ k ≤ num / den < 2 ^ (k + 1)`. -/
def binaryOrder (num den : Nat) : Int :=
  let guess : Int := (Nat.log2 num : Int) - Nat.log2 den
  if den * Nat.pow 2 guess.toNat ≤ num * Nat.pow 2 (-guess).toNat then guess else guess - 1

/-- The magnitude nearest to `num / den`; none when it would exceed the largest. -/
def nearest? (num den : Nat) : Option Magnitude :=
  if num = 0 then some zero
  else
    let exponent := max (binaryOrder num den - 52) minExponent
    let significand :=
      roundDiv (num * Nat.pow 2 (-exponent).toNat) (den * Nat.pow 2 exponent.toNat)
    let rounded : Magnitude :=
      if significand = 2 * fullSignificand then ⟨fullSignificand, exponent + 1⟩
      else ⟨significand, exponent⟩
    if maxExponent < rounded.exponent then none else some rounded

/-- The product, rounded. -/
def mul? (x y : Magnitude) : Option Magnitude := nearest? (x.num * y.num) (x.den * y.den)

/-- The quotient, rounded; none also when dividing by zero. -/
def div? (x y : Magnitude) : Option Magnitude :=
  if y.isZero then none else nearest? (x.num * y.den) (x.den * y.num)

end Magnitude

/-- A finite double: a magnitude with a sign, so that zero has two forms. -/
structure Binary64 where
  negative : Bool
  magnitude : Magnitude
  deriving DecidableEq, Repr, Inhabited

end Stencil
