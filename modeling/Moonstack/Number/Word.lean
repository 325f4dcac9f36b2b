import Moonstack.Number.Binary64

/-!
# 32-bit integers

What the prelude's helpers on 32-bit integers compute. The generated code keeps such an integer as a
double with a signed 32-bit value. Sums and products are brought back into range by wrapping a
double to 32 bits (`Word.ofDouble`).
-/

namespace Moonstack

/-! ## Traps -/

/-- Why running code stops. -/
inductive Trap where
  | divideByZero
  | integerOverflow
  | unreachable
  | outOfBounds
deriving DecidableEq

namespace Trap

/-- The message that is raised. -/
def message : Trap → String
  | divideByZero => "integer divide by zero"
  | integerOverflow => "integer overflow"
  | unreachable => "unreachable"
  | outOfBounds => "out of bounds memory access"

/-- All of them. -/
def all : List Trap := [divideByZero, integerOverflow, unreachable, outOfBounds]

end Trap

/-! ## Words and doubles -/

namespace Word

/-- The numbers of an unsigned word: `2 ^ 32`. -/
def modulus : Nat := 1 <<< 32

/-- The word with the bits of an unsigned number. -/
def ofUnsigned (n : Nat) : Int32 := Int32.ofNat n

/-- A word as an unsigned number. -/
def toUnsigned (a : Int32) : Nat := a.toUInt32.toNat

/-- The remainder of a finite double by `2 ^ 32`, brought into the range from zero up. A negative
remainder is raised by `2 ^ 32` in double precision, and so may become `2 ^ 32` itself. -/
def remainder (x : Binary64) : Binary64 :=
  let r := x.scaled.tmod (modulus * Binary64.one : Nat)
  if r < 0 then Binary64.rounded false (r + (modulus * Binary64.one : Nat)).toNat
  else Binary64.rounded false r.toNat

/-- A double wrapped to 32 bits: the integer part of its remainder by `2 ^ 32`. What is not finite
gives zero. -/
def ofDouble (x : Binary64) : Int32 :=
  if x.isFinite then ofUnsigned ((remainder x).clampedInt 0 (modulus - 1 : Nat)).toNat else 0

/-- A word as an unsigned number, in double precision. -/
def unsigned (a : Int32) : Binary64 := Binary64.ofInt (toUnsigned a)

/-! ## Operations -/

/-- The product, rounded to a double and then wrapped. -/
def multiplyFast (a b : Int32) : Int32 := ofDouble (Binary64.ofInt (a.toInt * b.toInt))

/-- The exact product, wrapped. -/
def multiply (a b : Int32) : Int32 := a * b

/-- The signed quotient, toward zero. -/
def divideS (a b : Int32) : Except Trap Int32 :=
  if b = 0 then .error .divideByZero
  else if a = Int32.minValue ∧ b = -1 then .error .integerOverflow
  else .ok (a / b)

/-- The unsigned quotient. -/
def divideU (a b : Int32) : Except Trap Int32 :=
  if b = 0 then .error .divideByZero else .ok (ofUnsigned (toUnsigned a / toUnsigned b))

/-- The signed remainder, with the sign of the dividend. -/
def remainderS (a b : Int32) : Except Trap Int32 :=
  if b = 0 then .error .divideByZero else .ok (a % b)

/-- The unsigned remainder. -/
def remainderU (a b : Int32) : Except Trap Int32 :=
  if b = 0 then .error .divideByZero else .ok (ofUnsigned (toUnsigned a % toUnsigned b))

/-- The number of zero bits above the highest one bit. -/
def leadingZeros (a : Int32) : Int32 :=
  if a = 0 then 32 else Int32.ofNat (31 - (toUnsigned a).log2)

/-- The number of zero bits below the lowest one bit. -/
def trailingZeros (a : Int32) : Int32 :=
  Int32.ofNat (((List.range 32).find? (toUnsigned a).testBit).getD 32)

/-- The number of one bits. -/
def oneBits (a : Int32) : Int32 := Int32.ofNat ((List.range 32).countP (toUnsigned a).testBit)

/-- The lowest bits read as a signed number. -/
def extend (a : Int32) (bits : Nat) : Int32 := Int32.ofInt (a.toInt.bmod (1 <<< bits))

/-- A double's integer part, clamped to the signed words. -/
def truncS (x : Binary64) : Int32 :=
  Int32.ofInt (x.clampedInt Int32.minValue.toInt Int32.maxValue.toInt)

/-- A double's integer part, clamped to the unsigned words. -/
def truncU (x : Binary64) : Int32 := ofUnsigned (x.clampedInt 0 (modulus - 1 : Nat)).toNat

end Word

end Moonstack
