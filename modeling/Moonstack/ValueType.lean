/-!
# Value types

The types a value, a parameter or a result can have, the signature of a function, and the size
limits of a memory or a table.
-/

namespace Moonstack

/-- The type of a value. -/
inductive ValueType where
  | i32
  | i64
  | f32
  | f64
deriving DecidableEq

namespace ValueType

/-- The name of a type. -/
def name : ValueType → String
  | i32 => "i32"
  | i64 => "i64"
  | f32 => "f32"
  | f64 => "f64"

/-- How many bits a value has. -/
def bits : ValueType → Nat
  | i32 | f32 => 32
  | i64 | f64 => 64

/-- The type of the same width in the other family, integer or float: what a reinterpretation reads.
-/
def counterpart : ValueType → ValueType
  | i32 => f32
  | i64 => f64
  | f32 => i32
  | f64 => i64

end ValueType

/-- The parameter and result types of a function. -/
structure Signature where
  params : List ValueType := []
  results : List ValueType := []
deriving DecidableEq

/-- The size limits of a memory, in pages, or of a table, in entries. -/
structure Limits where
  initial : Nat
  maximum : Option Nat

end Moonstack
