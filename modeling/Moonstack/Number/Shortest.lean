import Moonstack.Number.Binary64

/-!
# Shortest decimals

The decimal with the fewest digits that reads back as a given double, and of those the nearest.

A finite positive double stands for an interval of reals, those that round to it; the ends belong to
it iff the significand is even. For one digit, two digits and so on, the two neighbours of the value
on the grid of decimals with so many digits are tried; the first grid with a neighbour in the
interval gives the answer, the nearer one if both are in it, the upper one if they are equally near.

All quantities are fractions over `2 ^ 1076`, a quarter of the least positive double.
-/

namespace Moonstack

/-- A decimal: `digits * 10 ^ exponent`. -/
structure Decimal where
  digits : Nat
  exponent : Int
deriving DecidableEq

namespace Decimal

/-- The number of decimal digits; one for zero. -/
def width (n : Nat) : Nat := (Nat.toDigits 10 n).length

/-- The exponent of ten of the first digit of `num / den`. -/
def leadingExponent (num den : Nat) : Int :=
  if den ≤ num then (width (num / den) : Int) - 1 else -(width (den / num) : Int)

end Decimal

namespace Binary64

/-- Quarters of the least positive double in one. -/
def quarters : Nat := 4 * one

/-- The interval of a positive finite double, in quarters: its ends, and whether they belong to it.
-/
def interval (x : Binary64) : Nat × Nat × Bool :=
  let step := 1 <<< x.place
  let below := if x.fraction = 0 ∧ 1 < x.exponentField then step else 2 * step
  (4 * x.magnitude - below, 4 * x.magnitude + 2 * step, x.significand % 2 == 0)

/-- The better neighbour of a positive finite double on the grid of multiples of `10 ^ exponent`, if
one lies in its interval. -/
def neighbour? (x : Binary64) (exponent : Int) : Option Decimal :=
  let up := Nat.pow 10 (-exponent).toNat
  let den := quarters * Nat.pow 10 exponent.toNat
  let num := 4 * x.magnitude * up
  let (low, high, closed) := x.interval
  let inside := fun c : Nat =>
    if closed then decide (low * up ≤ c * den ∧ c * den ≤ high * up)
    else decide (low * up < c * den ∧ c * den < high * up)
  let c := num / den
  if inside c && (!inside (c + 1) || decide (2 * (num % den) < den)) then some ⟨c, exponent⟩
  else if inside (c + 1) then some ⟨c + 1, exponent⟩
  else none

/-- The decimal with the fewest digits, at most seventeen, that reads back as a positive finite
double. -/
def shortest (x : Binary64) : Decimal :=
  let lead := Decimal.leadingExponent (4 * x.magnitude) quarters
  let found := (List.range 17).findSome? fun n : Nat => x.neighbour? (lead - n)
  found.getD ⟨4 * x.magnitude / quarters, 0⟩

end Binary64

end Moonstack
