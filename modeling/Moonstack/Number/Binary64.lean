/-!
# Double-precision numbers

A double is its 64 bits. A finite one is a sign and a magnitude, and the magnitude is a natural
number of units of `2 ^ -1074`, the least positive double. All arithmetic here is on these natural
numbers, so nothing is lost and nothing depends on a floating-point unit.
-/

namespace Moonstack

/-- A double-precision number, given by its bits. -/
structure Binary64 where
  bits : UInt64
deriving DecidableEq

namespace Binary64

/-! ## The bits of a double -/

/-- How many least positive doubles make one: `2 ^ 1074`. -/
def one : Nat := 1 <<< 1074

/-- Is the sign bit set? -/
def negative (x : Binary64) : Bool := decide (1 <<< 63 ≤ x.bits.toNat)

/-- The eleven exponent bits. -/
def exponentField (x : Binary64) : Nat := x.bits.toNat >>> 52 % 2048

/-- The fifty-two fraction bits. -/
def fraction (x : Binary64) : Nat := x.bits.toNat % (1 <<< 52)

/-- Neither an infinity nor a NaN. -/
def isFinite (x : Binary64) : Bool := x.exponentField != 2047

/-- Is it no number? -/
def isNaN (x : Binary64) : Bool := x.exponentField == 2047 && x.fraction != 0

/-- The fraction with the leading one, which only the least doubles lack. -/
def significand (x : Binary64) : Nat :=
  if x.exponentField = 0 then x.fraction else x.fraction + 1 <<< 52

/-- The exponent of two of the last place, counted from that of the least positive double. -/
def place (x : Binary64) : Nat := x.exponentField - 1

/-! ## Values -/

/-- The absolute value of a finite double, in units of `2 ^ -1074`. -/
def magnitude (x : Binary64) : Nat := x.significand <<< x.place

/-- The value of a finite double, in units of `2 ^ -1074`. -/
def scaled (x : Binary64) : Int := if x.negative then -(x.magnitude : Int) else x.magnitude

/-- A double from its sign and the remaining 63 bits. -/
def ofFields (negative : Bool) (rest : Nat) : Binary64 :=
  ⟨UInt64.ofNat ((if negative then 1 <<< 63 else 0) + rest)⟩

/-- An infinity. -/
def infinity (negative : Bool) : Binary64 := ofFields negative (2047 <<< 52)

/-- The NaN that arithmetic yields. -/
def nan : Binary64 := ofFields false (2047 <<< 52 + 1 <<< 51)

/-! ## Rounding -/

/-- A quotient rounded to the nearest integer, a tie to the even one. -/
def divideToEven (a d : Nat) : Nat :=
  let q := a / d
  let r := a % d
  if 2 * r < d then q else if d < 2 * r then q + 1 else q + q % 2

/-- The finite double with a significand of at most 53 bits at the given place, or an infinity if
the place is too high. -/
def make (negative : Bool) (significand place : Nat) : Binary64 :=
  if significand < 1 <<< 52 then ofFields negative significand
  else if place ≤ 2045 then ofFields negative ((place + 1) <<< 52 + (significand - 1 <<< 52))
  else infinity negative

/-- The double nearest to a magnitude in units of `2 ^ -1074`, a tie to the even significand. -/
def rounded (negative : Bool) (a : Nat) : Binary64 :=
  let place := Nat.log2 a - 52
  let s := divideToEven a (1 <<< place)
  if s = 1 <<< 53 then make negative (1 <<< 52) (place + 1) else make negative s place

/-- The double nearest to an integer. -/
def ofInt (n : Int) : Binary64 := rounded (decide (n < 0)) (n.natAbs * one)

/-- The value of a single-precision number, given by its bits. -/
def promote (bits : UInt32) : Binary64 :=
  let negative := decide (1 <<< 31 ≤ bits.toNat)
  let exponent := bits.toNat >>> 23 % 256
  let fraction := bits.toNat % (1 <<< 23)
  if exponent = 255 then if fraction = 0 then infinity negative else nan
  else
    let significand := if exponent = 0 then fraction else fraction + 1 <<< 23
    rounded negative (significand <<< (exponent - 1 + 925))

/-! ## Operations -/

/-- The integer part, toward zero, brought into the range from `low` to `high`. A NaN gives zero. -/
def clampedInt (x : Binary64) (low high : Int) : Int :=
  if x.isNaN then 0
  else if x.isFinite then max low (min high (x.scaled.tdiv one))
  else if x.negative then low else high

/-- Rounds toward zero, keeping the sign of zero. -/
def truncate (x : Binary64) : Binary64 :=
  if x.isFinite then rounded x.negative (x.magnitude / one * one) else x

/-- Rounds to the nearest integer, a tie to the even one, keeping the sign of zero. -/
def nearest (x : Binary64) : Binary64 :=
  if x.isFinite then rounded x.negative (divideToEven x.magnitude one * one) else x

/-- A key that orders all doubles but the NaNs; both zeros have the same. -/
def orderKey (x : Binary64) : Int :=
  let rest : Nat := x.bits.toNat % (1 <<< 63)
  if x.negative then -(rest : Int) else rest

/-- The lesser number. A NaN wins, and of two zeros the negative one. -/
def minimum (a b : Binary64) : Binary64 :=
  if a.isNaN || b.isNaN then nan
  else if a.orderKey = 0 ∧ b.orderKey = 0 then if a.negative then a else b
  else if a.orderKey ≤ b.orderKey then a else b

/-- The greater number. A NaN wins, and of two zeros the positive one. -/
def maximum (a b : Binary64) : Binary64 :=
  if a.isNaN || b.isNaN then nan
  else if a.orderKey = 0 ∧ b.orderKey = 0 then if a.negative then b else a
  else if a.orderKey ≤ b.orderKey then b else a

/-- The absolute value of the first with the sign of the second. -/
def copysign (a b : Binary64) : Binary64 := ofFields b.negative (a.bits.toNat % (1 <<< 63))

end Binary64

end Moonstack
