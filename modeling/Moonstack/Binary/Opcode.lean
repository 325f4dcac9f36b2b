import Moonstack.Instr

/-!
# Opcodes

The instructions of the vocabulary that come in rows: those that compute without immediates
(`numericOps`), loads, stores, and the truncations that clamp. Each row is listed in the order of
its opcodes, which are consecutive.
-/

namespace Moonstack

/-! ## Operations without immediates -/

/-- The comparisons of integers, in the order of their opcodes. -/
def integerComparisons : List Comparison :=
  [.eq, .ne, .ltS, .ltU, .gtS, .gtU, .leS, .leU, .geS, .geU]

/-- The comparisons of floats, in the order of their opcodes. -/
def floatComparisons : List Comparison := [.eq, .ne, .lt, .gt, .le, .ge]

/-- The operations on one integer, in the order of their opcodes. -/
def integerUnary : List UnaryOp := [.clz, .ctz, .popcnt]

/-- The operations on two integers, in the order of their opcodes. -/
def integerBinary : List BinaryOp :=
  [.add, .sub, .mul, .divS, .divU, .remS, .remU, .and, .or, .xor, .shl, .shrS, .shrU, .rotl, .rotr]

/-- The operations on one float, in the order of their opcodes. -/
def floatUnary : List UnaryOp := [.abs, .neg, .ceil, .floor, .trunc, .nearest, .sqrt]

/-- The operations on two floats, in the order of their opcodes. -/
def floatBinary : List BinaryOp := [.add, .sub, .mul, .div, .min, .max, .copysign]

/-- The truncations to an integer type, in the order of their opcodes. -/
def truncations (target : ValueType) : List Conversion :=
  [.truncS target .f32, .truncU target .f32, .truncS target .f64, .truncU target .f64]

/-- The conversions from integers to a float type, in the order of their opcodes. -/
def conversionsTo (target : ValueType) : List Conversion :=
  [.convertS target .i32, .convertU target .i32, .convertS target .i64, .convertU target .i64]

/-- All conversions, in the order of their opcodes. -/
def conversions : List Conversion :=
  [.wrap] ++ truncations .i32 ++ [.extendS, .extendU] ++ truncations .i64 ++
    conversionsTo .f32 ++ [.demote] ++ conversionsTo .f64 ++ [.promote] ++
    [.reinterpret .i32, .reinterpret .i64, .reinterpret .f32, .reinterpret .f64]

/-- The opcode of the first of `numericOps`. -/
def firstNumeric : Nat := 0x45

/-- The instructions without immediates that compute, in the order of their opcodes. -/
def numericOps : List Op :=
  [.eqz .i32] ++ integerComparisons.map (.compare .i32) ++
  [.eqz .i64] ++ integerComparisons.map (.compare .i64) ++
  floatComparisons.map (.compare .f32) ++ floatComparisons.map (.compare .f64) ++
  integerUnary.map (.unary .i32) ++ integerBinary.map (.binary .i32) ++
  integerUnary.map (.unary .i64) ++ integerBinary.map (.binary .i64) ++
  floatUnary.map (.unary .f32) ++ floatBinary.map (.binary .f32) ++
  floatUnary.map (.unary .f64) ++ floatBinary.map (.binary .f64) ++
  conversions.map .convert ++
  [.unary .i32 .extend8S, .unary .i32 .extend16S, .unary .i64 .extend8S, .unary .i64 .extend16S,
    .unary .i64 .extend32S]

/-! ## Accesses to memory -/

/-- The opcode of the first of `loads`. -/
def firstLoad : Nat := 0x28

/-- The loads, in the order of their opcodes: type, width, and whether the value is signed. -/
def loads : List (ValueType × Width × Bool) :=
  [(.i32, .w32, false), (.i64, .w64, false), (.f32, .w32, false), (.f64, .w64, false),
    (.i32, .w8, true), (.i32, .w8, false), (.i32, .w16, true), (.i32, .w16, false),
    (.i64, .w8, true), (.i64, .w8, false), (.i64, .w16, true), (.i64, .w16, false),
    (.i64, .w32, true), (.i64, .w32, false)]

/-- The opcode of the first of `stores`. -/
def firstStore : Nat := 0x36

/-- The stores, in the order of their opcodes. -/
def stores : List (ValueType × Width) :=
  [(.i32, .w32), (.i64, .w64), (.f32, .w32), (.f64, .w64), (.i32, .w8), (.i32, .w16), (.i64, .w8),
    (.i64, .w16), (.i64, .w32)]

/-- The truncations that clamp, by their second code. They are the same conversions as those that
trap. -/
def clampedTruncations : List Conversion := truncations .i32 ++ truncations .i64

end Moonstack
