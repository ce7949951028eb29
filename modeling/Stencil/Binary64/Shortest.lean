import Stencil.Binary64

/-!
# The fewest digits that read back

A positive magnitude is the nearest one for every real number in an interval
around it; the ends belong to the interval exactly when the significand is even,
and the lower half is narrower below a power of two. The shortest decimal for a
magnitude is found grid by grid: for one digit, then two, and so on, the value's
two neighbours on the grid of that many digits are tried, and the first grid with
a neighbour inside the interval gives the answer, the nearer neighbour if both
are inside and the even one if they are equally near. Seventeen digits always
suffice.
-/

namespace Stencil

/-- A positive decimal `digits · 10 ^ exponent`. -/
structure Decimal where
  digits : Nat
  exponent : Int
  deriving DecidableEq, Repr, Inhabited

/-- The point `n · 10 ^ unit` of the grid of `count` digits; the point past the last one has
fewer digits and a larger exponent. -/
def Decimal.ofGrid (count n : Nat) (unit : Int) : Decimal :=
  if n = Nat.pow 10 count then ⟨Nat.pow 10 (count - 1), unit + 1⟩ else ⟨n, unit⟩

namespace Magnitude

/-- The exponent `k` with `10 ^ k ≤ num / den < 10 ^ (k + 1)`, searched from `2 ^ order`. -/
def decimalOrder (num den : Nat) : Int :=
  let guess : Int := (binaryOrder num den * 30103) / 100000
  let holds (k : Int) : Bool := den * Nat.pow 10 k.toNat ≤ num * Nat.pow 10 (-k).toNat
  if holds (guess + 1) then guess + 1 else if holds guess then guess else guess - 1

/-- Whether `digits · 10 ^ exponent` rounds to `x`. -/
def readsBack (x : Magnitude) (d : Decimal) : Bool :=
  let quarter : Int := x.exponent - 2
  -- the point and the ends of the interval, in units of a quarter of the last place
  let scale : Nat := Nat.pow 10 (-d.exponent).toNat * Nat.pow 2 quarter.toNat
  let point : Nat := d.digits * Nat.pow 10 d.exponent.toNat * Nat.pow 2 (-quarter).toNat
  let middle := 4 * x.significand
  let narrow := x.significand == fullSignificand && minExponent < x.exponent
  let low := (middle - if narrow then 1 else 2) * scale
  let high := (middle + 2) * scale
  if x.significand % 2 = 0 then low ≤ point && point ≤ high else low < point && point < high

/-- The decimal of `count` digits nearest to `x` that reads back, if one does. -/
def decimalOf? (x : Magnitude) (order : Int) (count : Nat) : Option Decimal :=
  let unit : Int := order - (count : Int) + 1
  let num := x.num * Nat.pow 10 (-unit).toNat
  let den := x.den * Nat.pow 10 unit.toNat
  let below := Decimal.ofGrid count (num / den) unit
  let above := Decimal.ofGrid count (num / den + 1) unit
  match x.readsBack below, x.readsBack above with
  | false, false => none
  | true, false => some below
  | false, true => some above
  | true, true => some (.ofGrid count (roundDiv num den) unit)

/-- The shortest decimal that reads back as `x`, for `x` other than zero. -/
def shortest (x : Magnitude) : Decimal :=
  let order := decimalOrder x.num x.den
  let counts := (List.range 17).map (· + 1)
  (counts.findSome? (x.decimalOf? order)).getD ⟨x.num / x.den, 0⟩

end Magnitude

end Stencil
