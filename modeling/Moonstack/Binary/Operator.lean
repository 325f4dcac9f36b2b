import Moonstack.Binary.Layout.Atomic
import Moonstack.Binary.Layout.Reference
import Moonstack.Binary.Layout.Vector
import Moonstack.Binary.Opcode

/-!
# Operators

The flat instructions of a binary: structured instructions are not nested yet, and `else` and `end`
are operators of their own.
-/

namespace Moonstack

/-- An instruction as it stands in a binary. -/
inductive Operator where
  | block (type : BlockType)
  | loop (type : BlockType)
  | cond (type : BlockType)
  | otherwise
  | finish
  | leaf (op : Op)

namespace Decoder

/-! ## Parts of operators -/

/-- The static part of a memory access. -/
def memArg : Decoder MemArg := do
  let p ← place
  return { offset := p.offset, memory := p.memory }

/-- A branch table. -/
def branchTable : Decoder Op := do
  let (targets, fallback) ← branchTargets
  return .brTable targets fallback

/-- A choice of a given type, which does not matter. -/
def typedSelect : Decoder Op := do
  let _ ← selectType
  return .select

/-! ## Operators -/

/-- An instruction on numbers after its opcode. -/
def numericOp (code : Nat) : Decoder Op := do
  match numericOps[code - firstNumeric]? with
  | some op => if firstNumeric ≤ code then return op else failure
  | none => failure

/-- A load or a store after its opcode. -/
def accessOp (code : Nat) : Decoder Op := do
  if code < firstStore then
    match loads[code - firstLoad]? with
    | some (type, width, signed) => return .load type width signed (← memArg)
    | none => failure
  else
    match stores[code - firstStore]? with
    | some (type, width) => return .store type width (← memArg)
    | none => failure

/-- An instruction with a second code, after its first. -/
def longOp (code : Nat) : Decoder Op := do
  let second ← index
  match code with
  | 0xfb => return .unsupported (← named Layout.managed second)
  | 0xfc =>
    match clampedTruncations[second]? with
    | some c => return .convert c
    | none => return .unsupported (← named Layout.bulk second)
  | 0xfd => return .unsupported (← named Layout.vector second)
  | _ => return .unsupported (← named Layout.atomic second)

/-- An instruction without a body, after its opcode. -/
def leafOp (code : Nat) : Decoder Op := do
  match code with
  | 0x00 => return .unreachable
  | 0x01 => return .nop
  | 0x0c => return .br (← index)
  | 0x0d => return .brIf (← index)
  | 0x0e => branchTable
  | 0x0f => return .ret
  | 0x10 => return .call (← index)
  | 0x11 =>
    let type ← index
    return .callIndirect type (← index)
  | 0x1a => return .drop
  | 0x1b => return .select
  | 0x1c => typedSelect
  | 0x20 => return .localGet (← index)
  | 0x21 => return .localSet (← index)
  | 0x22 => return .localTee (← index)
  | 0x23 => return .globalGet (← index)
  | 0x24 => return .globalSet (← index)
  | 0x3f => return .memorySize (← index)
  | 0x40 => return .memoryGrow (← index)
  | 0x41 => return .const (.i32 (Int32.ofInt (← signed 32)))
  | 0x42 => return .const (.i64 (Int64.ofInt (← signed 64)))
  | 0x43 => return .const (.f32 (UInt32.ofNat (← fixed 4)))
  | 0x44 => return .const (.f64 (UInt64.ofNat (← fixed 8)))
  | _ =>
    if firstLoad ≤ code ∧ code < 0x3f then accessOp code
    else if firstNumeric ≤ code ∧ code < firstNumeric + numericOps.length then numericOp code
    else if 0xfb ≤ code ∧ code ≤ 0xfe then longOp code
    else return .unsupported (← named Layout.singleByte code)

/-- An operator. Of an instruction outside the vocabulary only the name is kept. -/
def operator : Decoder Operator := do
  match ← byte with
  | 0x02 => return .block (← blockType)
  | 0x03 => return .loop (← blockType)
  | 0x04 => return .cond (← blockType)
  | 0x05 => return .otherwise
  | 0x0b => return .finish
  | code => return .leaf (← leafOp code)

end Decoder

/-! ## Initializers and bodies -/

/-- An operator with the byte offset of its opcode. -/
abbrev PlacedOperator := Nat × Operator

namespace Decoder

/-- At most the given number of operators, up to the first `end`. -/
def expressionUpTo : Nat → Decoder (List PlacedOperator)
  | 0 => failure
  | n + 1 => do
    let offset ← position
    match ← operator with
    | .finish => return [(offset, .finish)]
    | o => return (offset, o) :: (← expressionUpTo n)

/-- The operators of an initializer. It goes to the first `end`, whatever is open there. -/
def expression : Decoder (List PlacedOperator) := do expressionUpTo (← get).rest.length

end Decoder

/-- Operators read one after the other. What can be decoded is kept, since a failure matters only if
the body has not ended before. -/
structure Stream where
  operators : List PlacedOperator
  broken : Bool

namespace Stream

/-- At most the given number of operators. -/
def upTo : Nat → Input → Stream
  | 0, _ => ⟨[], false⟩
  | n + 1, input =>
    if input.rest.isEmpty then ⟨[], false⟩
    else
      match Decoder.operator input with
      | none => ⟨[], true⟩
      | some (o, left) =>
        let rest := upTo n left
        { rest with operators := (input.position, o) :: rest.operators }

/-- All operators of an input. Each takes at least one byte. -/
def ofInput (input : Input) : Stream := upTo input.rest.length input

end Stream

end Moonstack
