import Moonstack.Number.Word

/-!
# 64-bit integers

The generated code keeps a 64-bit integer as a pair of signed 32-bit halves. The operations are
those of the numbers the halves stand for.
-/

namespace Moonstack

/-! ## Halves -/

/-- A 64-bit integer as two signed halves. -/
structure LongInt where
  low : Int32
  high : Int32
deriving DecidableEq

namespace LongInt

/-- The halves of a number. -/
def ofInt64 (n : Int64) : LongInt := ⟨n.toInt32, (n >>> 32).toInt32⟩

/-- The number that two halves stand for. -/
def toInt64 (p : LongInt) : Int64 :=
  Int64.ofInt (p.high.toInt * (Word.modulus : Int) + (Word.toUnsigned p.low : Int))

/-- The unsigned number that two halves stand for. -/
def toUnsigned (p : LongInt) : Nat := p.toInt64.toUInt64.toNat

/-- The halves of an unsigned number. -/
def ofUnsigned (n : Nat) : LongInt := ofInt64 (UInt64.ofNat n).toInt64

/-- The number zero. -/
def zero : LongInt := ⟨0, 0⟩

/-! ## Conversions -/

/-- A truth value as a number. -/
def ofBool (b : Bool) : Int32 := if b then 1 else 0

/-- A double's integer part, clamped to the signed numbers. -/
def truncS (x : Binary64) : LongInt :=
  ofInt64 (Int64.ofInt (x.clampedInt Int64.minValue.toInt Int64.maxValue.toInt))

/-- A double's integer part, clamped to the unsigned numbers. -/
def truncU (x : Binary64) : LongInt := ofUnsigned (x.clampedInt 0 (1 <<< 64 - 1 : Nat)).toNat

/-- A word with its sign. -/
def extendS (a : Int32) : LongInt := ⟨a, a >>> 31⟩

/-- A word filled with zeros. -/
def extendU (a : Int32) : LongInt := ⟨a, 0⟩

/-- The low word. -/
def wrap (p : LongInt) : Int32 := p.low

/-- The double nearest to the signed number. -/
def convertS (p : LongInt) : Binary64 := Binary64.ofInt p.toInt64.toInt

/-- The double nearest to the unsigned number. -/
def convertU (p : LongInt) : Binary64 := Binary64.ofInt p.toUnsigned

/-! ## Arithmetic -/

/-- The sum. -/
def add (a b : LongInt) : LongInt := ofInt64 (a.toInt64 + b.toInt64)

/-- The product. -/
def mul (a b : LongInt) : LongInt := ofInt64 (a.toInt64 * b.toInt64)

/-- The signed quotient, toward zero. -/
def divideS (a b : LongInt) : Except Trap LongInt :=
  if b.toInt64 = 0 then .error .divideByZero
  else if a.toInt64 = Int64.minValue ∧ b.toInt64 = -1 then .error .integerOverflow
  else .ok (ofInt64 (a.toInt64 / b.toInt64))

/-- The unsigned quotient. -/
def divideU (a b : LongInt) : Except Trap LongInt :=
  if b.toInt64 = 0 then .error .divideByZero else .ok (ofUnsigned (a.toUnsigned / b.toUnsigned))

/-- The signed remainder, with the sign of the dividend. -/
def remainderS (a b : LongInt) : Except Trap LongInt :=
  if b.toInt64 = 0 then .error .divideByZero else .ok (ofInt64 (a.toInt64 % b.toInt64))

/-! ## Shifts and comparisons -/

/-- The shift count in the low six bits of a number. -/
def shiftCount (b : LongInt) : Nat := Word.toUnsigned b.low % 64

/-- A shift to the left. -/
def shiftLeft (a b : LongInt) : LongInt := ofUnsigned (a.toUnsigned <<< b.shiftCount)

/-- A shift to the right that keeps the sign. -/
def shiftRightS (a b : LongInt) : LongInt :=
  ofInt64 (Int64.ofInt (a.toInt64.toInt >>> b.shiftCount))

/-- A shift to the right that fills with zeros. -/
def shiftRightU (a b : LongInt) : LongInt := ofUnsigned (a.toUnsigned >>> b.shiftCount)

/-- A rotation to the left. -/
def rotateLeft (a b : LongInt) : LongInt :=
  ofUnsigned (a.toUnsigned <<< b.shiftCount ||| a.toUnsigned >>> (64 - b.shiftCount))

/-- One if the first is less, as unsigned numbers. -/
def lessU (a b : LongInt) : Int32 := ofBool (decide (a.toUnsigned < b.toUnsigned))

/-- One if the first is less, as signed numbers. -/
def lessS (a b : LongInt) : Int32 := ofBool (decide (a.toInt64 < b.toInt64))

end LongInt

end Moonstack
