import Moonstack.Code.Expr

/-!
# Arithmetic

How operations on values are spelled in the generated code.

A 32-bit integer is a number brought into range by `bit.tobit`; a 64-bit integer is a table with
methods; floats are plain numbers. An operation that does not exist at its type has no spelling.
-/

namespace Moonstack

open Moonstack.Expr

/-- The zero of a type. -/
def ValueType.zero : ValueType → Expr
  | i64 => callHelper .longInt [number 0, number 0]
  | i32 | f32 | f64 => number 0

/-- A number wrapped to 32 bits. -/
def toBit (e : Expr) : Expr := callField "bit" "tobit" [e]

/-- The lowest bits of a 32-bit integer, read as a signed number. -/
def signExtended (e : Expr) (bits : Nat) : Expr :=
  callField "bit" "arshift" [callField "bit" "lshift" [e, number (32 - bits)], number (32 - bits)]

/-! ## Operations on two values -/

/-- An operation on two 32-bit integers; `exact` asks for the exact product. -/
def BinaryOp.lower32 (exact : Bool) (l r : Expr) : BinaryOp → Option Expr
  | add => toBit (.binary .add l r)
  | sub => toBit (.binary .sub l r)
  | mul => if exact then callHelper .multiplyCorrect [l, r] else toBit (.binary .mul l r)
  | divS => callHelper .divideS [l, r]
  | divU => callHelper .divideU [l, r]
  | remS => callHelper .moduloS [l, r]
  | remU => callHelper .moduloU [l, r]
  | and => callField "bit" "band" [l, r]
  | or => callField "bit" "bor" [l, r]
  | xor => callField "bit" "bxor" [l, r]
  | shl => callField "bit" "lshift" [l, r]
  | shrS => callField "bit" "arshift" [l, r]
  | shrU => callField "bit" "rshift" [l, r]
  | rotl => callField "bit" "rol" [l, r]
  | rotr => callField "bit" "ror" [l, r]
  | div | min | max | copysign => none

/-- An operation on two 64-bit integers. -/
def BinaryOp.lower64 (l r : Expr) : BinaryOp → Option Expr
  | add => callMethod l "_add" [r]
  | sub => callMethod l "_sub" [r]
  | mul => callMethod l "_mul" [r]
  | divS => callMethod l "_div_s" [r]
  | divU => callMethod l "_div_u" [r]
  | remS => callMethod l "_rem_s" [r]
  | remU => callMethod l "_rem_u" [r]
  | and => callMethod l "_and" [r]
  | or => callMethod l "_or" [r]
  | xor => callMethod l "_xor" [r]
  | shl => callMethod l "_shl" [r]
  | shrS => callMethod l "_shr_s" [r]
  | shrU => callMethod l "_shr_u" [r]
  | rotl => callMethod l "_rotl" [r]
  | rotr => callMethod l "_rotr" [r]
  | div | min | max | copysign => none

/-- An operation on two floats. -/
def BinaryOp.lowerFloat (l r : Expr) : BinaryOp → Option Expr
  | add => paren (.binary .add l r)
  | sub => paren (.binary .sub l r)
  | mul => paren (.binary .mul l r)
  | div => paren (.binary .div l r)
  | min => callField Helper.float.name "min" [l, r]
  | max => callField Helper.float.name "max" [l, r]
  | copysign => callField Helper.float.name "copysign" [l, r]
  | divS | divU | remS | remU | and | or | xor | shl | shrS | shrU | rotl | rotr => none

/-- An operation on two values of a type; `exact` asks for exact 32-bit products. -/
def BinaryOp.lower (exact : Bool) (type : ValueType) (op : BinaryOp) (l r : Expr) : Option Expr :=
  match type with
  | .i32 => op.lower32 exact l r
  | .i64 => op.lower64 l r
  | .f32 | .f64 => op.lowerFloat l r

/-! ## Comparisons -/

/-- A comparison of two numbers as they are. -/
def compared (op : InfixOp) (l r : Expr) : Expr := flag (.binary op l r)

/-- A comparison of two 32-bit integers as unsigned numbers. -/
def comparedUnsigned (op : InfixOp) (l r : Expr) : Expr :=
  compared op (callHelper .unsigned [l]) (callHelper .unsigned [r])

/-- A comparison of two 32-bit integers. -/
def Comparison.lower32 (l r : Expr) : Comparison → Option Expr
  | eq => compared .eq l r
  | ne => compared .ne l r
  | ltS => compared .lt l r
  | gtS => compared .gt l r
  | leS => compared .le l r
  | geS => compared .ge l r
  | ltU => comparedUnsigned .lt l r
  | gtU => comparedUnsigned .gt l r
  | leU => comparedUnsigned .le l r
  | geU => comparedUnsigned .ge l r
  | lt | gt | le | ge => none

/-- A comparison of two 64-bit integers. -/
def Comparison.lower64 (l r : Expr) : Comparison → Option Expr
  | eq => callMethod l "_eq" [r]
  | ne => callMethod l "_ne" [r]
  | ltS => callMethod l "_lt_s" [r]
  | ltU => callMethod l "_lt_u" [r]
  | gtS => callMethod l "_gt_s" [r]
  | gtU => callMethod l "_gt_u" [r]
  | leS => callMethod l "_le_s" [r]
  | leU => callMethod l "_le_u" [r]
  | geS => callMethod l "_ge_s" [r]
  | geU => callMethod l "_ge_u" [r]
  | lt | gt | le | ge => none

/-- A comparison of two floats. -/
def Comparison.lowerFloat (l r : Expr) : Comparison → Option Expr
  | eq => compared .eq l r
  | ne => compared .ne l r
  | lt => compared .lt l r
  | gt => compared .gt l r
  | le => compared .le l r
  | ge => compared .ge l r
  | ltS | ltU | gtS | gtU | leS | leU | geS | geU => none

/-- A comparison of two values of a type, giving one or zero. -/
def Comparison.lower (type : ValueType) (op : Comparison) (l r : Expr) : Option Expr :=
  match type with
  | .i32 => op.lower32 l r
  | .i64 => op.lower64 l r
  | .f32 | .f64 => op.lowerFloat l r

/-- The test of an integer for zero, giving one or zero. -/
def lowerEqz (type : ValueType) (x : Expr) : Option Expr :=
  match type with
  | .i32 => compared .eq x (number 0)
  | .i64 => callMethod x "_eqz" []
  | .f32 | .f64 => none

/-! ## Operations on one value -/

/-- An operation on a 32-bit integer. -/
def UnaryOp.lower32 (x : Expr) : UnaryOp → Option Expr
  | clz => callHelper .clz [x]
  | ctz => callHelper .ctz [x]
  | popcnt => callHelper .popcnt [x]
  | extend8S => signExtended x 8
  | extend16S => signExtended x 16
  | extend32S | abs | neg | sqrt | ceil | floor | trunc | nearest => none

/-- An operation on a 64-bit integer. -/
def UnaryOp.lower64 (x : Expr) : UnaryOp → Option Expr
  | clz => callMethod x "_clz" []
  | ctz => callMethod x "_ctz" []
  | popcnt => callMethod x "_popcnt" []
  | extend8S => callMethod x "_extend8_s" []
  | extend16S => callMethod x "_extend16_s" []
  | extend32S => callMethod x "_extend32_s" []
  | abs | neg | sqrt | ceil | floor | trunc | nearest => none

/-- An operation on a float. -/
def UnaryOp.lowerFloat (x : Expr) : UnaryOp → Option Expr
  | abs => callField "math" "abs" [x]
  | neg => paren (negate x)
  | sqrt => callField "math" "sqrt" [x]
  | ceil => callField "math" "ceil" [x]
  | floor => callField "math" "floor" [x]
  | trunc => callField Helper.float.name "truncate" [x]
  | nearest => callField Helper.float.name "nearest" [x]
  | clz | ctz | popcnt | extend8S | extend16S | extend32S => none

/-- An operation on a value of a type. -/
def UnaryOp.lower (type : ValueType) (op : UnaryOp) (x : Expr) : Option Expr :=
  match type with
  | .i32 => op.lower32 x
  | .i64 => op.lower64 x
  | .f32 | .f64 => op.lowerFloat x

/-- A conversion, or nothing if the operand can be used as it is. -/
def Conversion.lower (x : Expr) : Conversion → Option Expr
  | wrap => index (paren x) (number 1)
  | extendS => callHelper .longInt [x, callField "bit" "arshift" [x, number 31]]
  | extendU => callHelper .longInt [x, number 0]
  | truncS .i64 _ => callHelper .longIntN [x]
  | truncU .i64 _ => callHelper .longIntUN [x]
  | truncS _ _ => callHelper .truncS32 [x]
  | truncU _ _ => callHelper .truncU32 [x]
  | convertS _ .i64 => callMethod x "_convert_s" []
  | convertU _ .i64 => callMethod x "_convert_u" []
  | convertS _ _ => none
  | convertU _ _ => callHelper .unsigned [x]
  | demote | promote => none
  | reinterpret .i32 => callHelper .reinterpretI32 [x]
  | reinterpret .i64 => callHelper .reinterpretI64 [x]
  | reinterpret .f32 => callHelper .reinterpretF32 [x]
  | reinterpret .f64 => callMethod x "_reinterpret_f64" []

end Moonstack
