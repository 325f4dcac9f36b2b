import Moonstack.ValueType

/-!
# Instructions

The instruction tree of a function body or an initializer. Every node carries the byte offset of its
opcode, from which labels are made.
-/

namespace Moonstack

/-! ## Operations -/

/-- The width of a memory access. -/
inductive Width where
  | w8 | w16 | w32 | w64
deriving DecidableEq

/-- How many bits are read or written. -/
def Width.bits : Width → Nat
  | w8 => 8
  | w16 => 16
  | w32 => 32
  | w64 => 64

/-- The static part of a memory access. -/
structure MemArg where
  offset : Nat
  memory : Nat
deriving DecidableEq

/-- A constant operand. Floats are kept as bits. -/
inductive Const where
  | i32 (value : Int32)
  | i64 (value : Int64)
  | f32 (bits : UInt32)
  | f64 (bits : UInt64)
deriving DecidableEq

/-- The type of a constant. -/
def Const.type : Const → ValueType
  | i32 _ => .i32
  | i64 _ => .i64
  | f32 _ => .f32
  | f64 _ => .f64

/-- A comparison. The last four are those of floats, which have no signedness. -/
inductive Comparison where
  | eq | ne | ltS | ltU | gtS | gtU | leS | leU | geS | geU | lt | gt | le | ge
deriving DecidableEq

/-- An operation on one operand that keeps its type. -/
inductive UnaryOp where
  | clz | ctz | popcnt | extend8S | extend16S | extend32S
  | abs | neg | sqrt | ceil | floor | trunc | nearest
deriving DecidableEq

/-- An operation on two operands of one type. `div`, `min`, `max` and `copysign` are those of
floats. -/
inductive BinaryOp where
  | add | sub | mul | divS | divU | remS | remU | and | or | xor
  | shl | shrS | shrU | rotl | rotr | div | min | max | copysign
deriving DecidableEq

/-- A change of type. -/
inductive Conversion where
  | wrap
  | extendS
  | extendU
  | truncS (target source : ValueType)
  /-- a float to an unsigned integer, toward zero, clamped to its range -/
  | truncU (target source : ValueType)
  | convertS (target source : ValueType)
  | convertU (target source : ValueType)
  | demote
  | promote
  | reinterpret (target : ValueType)
deriving DecidableEq

/-! ## Instructions -/

/-- An instruction that holds no other instruction. -/
inductive Op where
  | unreachable
  | nop
  | br (depth : Nat)
  | brIf (depth : Nat)
  | brTable (targets : List Nat) (fallback : Nat)
  | ret
  | call (function : Nat)
  | callIndirect (type table : Nat)
  | drop
  | select
  | localGet (index : Nat)
  | localSet (index : Nat)
  | localTee (index : Nat)
  | globalGet (index : Nat)
  | globalSet (index : Nat)
  | load (type : ValueType) (width : Width) (signed : Bool) (arg : MemArg)
  | store (type : ValueType) (width : Width) (arg : MemArg)
  | memorySize (memory : Nat)
  | memoryGrow (memory : Nat)
  | const (value : Const)
  | eqz (type : ValueType)
  | compare (type : ValueType) (op : Comparison)
  | unary (type : ValueType) (op : UnaryOp)
  | binary (type : ValueType) (op : BinaryOp)
  | convert (op : Conversion)
  | unsupported (name : String)
deriving DecidableEq

/-- The kind of a structured instruction. -/
inductive BlockKind where
  | block | loop | cond
deriving DecidableEq

/-- An instruction with the byte offset of its opcode and, if it is structured, the type of the
value it leaves and the bodies of its arms. -/
inductive Instr where
  | leaf (offset : Nat) (op : Op)
  | block (offset : Nat) (result : Option ValueType) (body : List Instr)
  | loop (offset : Nat) (result : Option ValueType) (body : List Instr)
  | ifThen (offset : Nat) (result : Option ValueType) (body : List Instr)
  | ifElse (offset : Nat) (result : Option ValueType) (body other : List Instr)

namespace Instr

/-- The byte offset of the opcode. -/
def offset : Instr → Nat
  | leaf n _ | block n _ _ | loop n _ _ | ifThen n _ _ | ifElse n _ _ _ => n

mutual

/-- The counter steps an instruction takes: one for itself, one for its close if it is structured,
one for an `else`, and those of its bodies. -/
def ticks : Instr → Nat
  | leaf _ _ => 1
  | block _ _ body | loop _ _ body | ifThen _ _ body => 2 + bodyTicks body
  | ifElse _ _ body other => 3 + bodyTicks body + bodyTicks other

/-- The counter steps a body takes. -/
def bodyTicks : List Instr → Nat
  | [] => 0
  | i :: rest => ticks i + bodyTicks rest

end

end Instr

end Moonstack
