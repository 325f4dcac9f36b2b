import Moonstack.Binary.Layout.Vocabulary
import Moonstack.Binary.Nesting
import Moonstack.Module

/-!
# Segments

Element and data segments. A segment is decoded as a whole first (`RawElement`, `RawData`), and then
its parts are turned into those of a module. Segments that are not stored at start are left out.
-/

namespace Moonstack

/-! ## Element segments -/

/-- An element of a segment. Of an expression only the first operator counts. -/
inductive RawItem where
  | function (index : Nat)
  | null
  | other (description : String)

/-- An element segment as it stands in a binary. -/
structure RawElement where
  /-- the table and the place in it; none if the segment is not stored at start -/
  place : Option (Nat × List PlacedOperator)
  items : List RawItem

/-- The function an element refers to. -/
def RawItem.lowered : RawItem → Except Failure (Option Nat)
  | function index => .ok (some index)
  | null => .ok none
  | other description => .error (.of (.elementExpression description))

/-- The segment, if it is stored at start. -/
def RawElement.lowered (e : RawElement) : Except Failure (Option ElementSegment) := do
  match e.place with
  | none => return none
  | some (table, offset) =>
    let functions ← e.items.mapM RawItem.lowered
    return some { table, offset := ← constantInstructions offset, functions }

namespace Decoder

/-- Runs a decoder without moving on. -/
def ahead {α : Type} (d : Decoder α) : Decoder α :=
  fun input => (d input).map fun (a, _) => (a, input)

/-- The element that the first operator of an expression gives. -/
def firstItem : Decoder RawItem := do
  match ← peek with
  | 0xd2 =>
    let _ ← byte
    return .function (← index)
  | 0xd0 => return .null
  | _ => return .other (← description).text

/-- An element given by an expression. -/
def itemExpression : Decoder RawItem := do
  let item ← ahead firstItem
  let _ ← expression
  return item

/-- What the elements of a segment are. It is given only if the segment has flags for its place. -/
def elementKind (flags : Nat) : Decoder Unit := do
  if flags % 4 ≠ 0 then
    if flags.testBit 2 then
      let _ ← refType
    else
      let kind ← byte
      guard (kind = 0)

/-- Where a segment is stored. Bit 0 of the flags tells of one that is not stored at start, and bit
1 of the index of a table. -/
def elementPlace (flags : Nat) : Decoder (Option (Nat × List PlacedOperator)) := do
  if flags.testBit 0 then return none
  else
    let table ← if flags.testBit 1 then index else pure 0
    return some (table, ← expression)

/-- An element segment. Bit 2 of the flags tells of elements given by expressions. -/
def element : Decoder RawElement := do
  let flags ← index
  guard (flags < 8)
  let place ← elementPlace flags
  elementKind flags
  let items ← if flags.testBit 2 then vector itemExpression else vector (RawItem.function <$> index)
  return { place, items }

end Decoder

/-! ## Data segments -/

/-- A data segment as it stands in a binary. -/
structure RawData where
  /-- the memory and the place in it; none if the segment is not stored at start -/
  place : Option (Nat × List PlacedOperator)
  bytes : List UInt8

/-- The segment, if it is stored at start. -/
def RawData.lowered (d : RawData) : Except Failure (Option DataSegment) := do
  match d.place with
  | none => return none
  | some (memory, offset) =>
    return some { memory, offset := ← constantInstructions offset, bytes := d.bytes }

namespace Decoder

/-- Where a segment is stored, if it is stored at start. -/
def dataPlace (flags : Nat) : Decoder (Option (Nat × List PlacedOperator)) := do
  match flags with
  | 0 => return some (0, ← expression)
  | 1 => return none
  | 2 =>
    let memory ← index
    return some (memory, ← expression)
  | _ => failure

/-- A data segment. -/
def dataSegment : Decoder RawData := do
  let place ← dataPlace (← index)
  return { place, bytes := (← sized).rest }

end Decoder

end Moonstack
