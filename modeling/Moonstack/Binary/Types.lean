import Moonstack.Binary.Decoder
import Moonstack.Binary.Description
import Moonstack.Failure
import Moonstack.ValueType

/-!
# Types in a binary

The types that can be decoded are more than those that can be lowered. `AnyType` is any decodable
value type, and `AnyType.lowered` refuses those outside the vocabulary by name.
-/

namespace Moonstack

/-! ## References -/

/-- A heap type with a name of its own. -/
structure AbstractHeap where
  code : Nat
  title : String
  name : String
  shorthand : String

/-- All heap types with names of their own. -/
def abstractHeaps : List AbstractHeap :=
  [⟨0x70, "Func", "func", "funcref"⟩, ⟨0x6f, "Extern", "extern", "externref"⟩,
    ⟨0x6e, "Any", "any", "anyref"⟩, ⟨0x71, "None", "none", "nullref"⟩,
    ⟨0x72, "NoExtern", "noextern", "nullexternref"⟩, ⟨0x73, "NoFunc", "nofunc", "nullfuncref"⟩,
    ⟨0x6d, "Eq", "eq", "eqref"⟩, ⟨0x6b, "Struct", "struct", "structref"⟩,
    ⟨0x6a, "Array", "array", "arrayref"⟩, ⟨0x6c, "I31", "i31", "i31ref"⟩,
    ⟨0x69, "Exn", "exn", "exnref"⟩, ⟨0x74, "NoExn", "noexn", "nullexnref"⟩,
    ⟨0x68, "Cont", "cont", "contref"⟩, ⟨0x75, "NoCont", "nocont", "nullcontref"⟩]

/-- The heap type that a byte stands for. -/
def abstractHeap? (code : Nat) : Option AbstractHeap := abstractHeaps.find? fun h => h.code == code

/-- What a reference points to. -/
inductive HeapType where
  | named (shared : Bool) (heap : AbstractHeap)
  | defined (index : Nat)

/-- A heap type as messages show it. -/
def HeapType.description : HeapType → Description
  | named shared heap =>
    .record "Abstract" [("shared", .word (toString shared)), ("ty", .word heap.title)]
  | defined index => .applied "Concrete" (.applied "Module" (.number index))

/-- A type of references. -/
structure RefType where
  nullable : Bool
  heap : HeapType

/-- A reference type as messages show it. -/
def RefType.text : RefType → String
  | ⟨true, .named false h⟩ => h.shorthand
  | ⟨true, .named true h⟩ => s!"(shared {h.shorthand})"
  | ⟨false, .named false h⟩ => s!"(ref {h.name})"
  | ⟨false, .named true h⟩ => s!"(ref (shared {h.name}))"
  | ⟨true, .defined n⟩ => s!"(ref null (module {n}))"
  | ⟨false, .defined n⟩ => s!"(ref (module {n}))"

namespace Decoder

/-- A heap type that has a byte of its own. -/
def namedHeap (shared : Bool) : Decoder HeapType := do
  match abstractHeap? (← byte) with
  | some h => return .named shared h
  | none => failure

/-- Types that are referred to have indices below this. -/
def typeIndexLimit : Nat := 1 <<< 20

/-- A number that may be the index of a type. -/
def typeIndex (d : Decoder Nat) : Decoder Nat := do
  let n ← d
  guard (n < typeIndexLimit)
  return n

/-- A heap type. -/
def heapType : Decoder HeapType := do
  let code ← peek
  if code = 0x65 then
    let _ ← byte
    namedHeap true
  else if (abstractHeap? code).isSome then namedHeap false
  else return .defined (← typeIndex signedIndex)

/-- A reference type. A heap type alone stands for the nullable reference to it. -/
def refType : Decoder RefType := do
  match ← peek with
  | 0x63 =>
    let _ ← byte
    return ⟨true, ← heapType⟩
  | 0x64 =>
    let _ ← byte
    return ⟨false, ← heapType⟩
  | _ => return ⟨true, ← heapType⟩

end Decoder

/-! ## Value types -/

/-- A value type that can be decoded. -/
inductive AnyType where
  | number (type : ValueType)
  | vector
  | reference (type : RefType)

/-- A value type as messages show it. -/
def AnyType.text : AnyType → String
  | number type => type.name.capitalize
  | vector => "V128"
  | reference type => s!"Ref({type.text})"

/-- The value type, if the generated code has it. -/
def AnyType.lowered : AnyType → Except Failure ValueType
  | number type => .ok type
  | type => .error (.of (.valueType type.text))

namespace Decoder

/-- A value type. -/
def valueType : Decoder AnyType := do
  let number (type : ValueType) : Decoder AnyType := do
    let _ ← byte
    return .number type
  match ← peek with
  | 0x7f => number .i32
  | 0x7e => number .i64
  | 0x7d => number .f32
  | 0x7c => number .f64
  | 0x7b =>
    let _ ← byte
    return .vector
  | _ => return .reference (← refType)

end Decoder

/-! ## Block types -/

/-- The type of a structured instruction. -/
inductive BlockType where
  | empty
  | value (type : AnyType)
  | signature (index : Nat)

/-- A block type as messages show it. -/
def BlockType.description : BlockType → Description
  | empty => .word "Empty"
  | value type => .applied "Type" (.word type.text)
  | signature index => .applied "FuncType" (.number index)

/-- The type of the value that a block leaves. A block with a signature is refused. -/
def BlockType.lowered : BlockType → Except Failure (Option ValueType)
  | empty => .ok none
  | value type => type.lowered.map some
  | signature _ => .error (.of .multiValueBlock)

/-- A block type. A byte that would be a negative number is a value type. -/
def Decoder.blockType : Decoder BlockType := do
  let code ← peek
  if code = 0x40 then
    let _ ← byte
    return .empty
  else if 0x40 < code ∧ code < 0x80 then return .value (← valueType)
  else return .signature (← signedIndex)

/-! ## Defined types -/

/-- A defined type: the signature of a function, or anything else. -/
inductive DefinedType where
  | signature (params results : List AnyType)
  | other

namespace Decoder

/-- The most parameters a signature may have, and the most results. -/
def signatureLimit : Nat := 1000

/-- The most fields a structure may have. -/
def fieldLimit : Nat := 10000

/-- The most types of a recursion group. -/
def groupLimit : Nat := 1000000

/-- A field of a structure or the element of an array. -/
def storageField : Decoder Unit := do
  let code ← peek
  if code = 0x78 ∨ code = 0x77 then
    let _ ← byte
  else
    let _ ← valueType
  let mutability ← byte
  guard (mutability ≤ 1)

/-- A type after its leading byte. -/
def compositeOf (code : Nat) : Decoder DefinedType := do
  match code with
  | 0x60 =>
    let params ← vectorUpTo signatureLimit valueType
    let results ← vectorUpTo signatureLimit valueType
    return .signature params results
  | 0x5f =>
    let _ ← vectorUpTo fieldLimit storageField
    return .other
  | 0x5e =>
    storageField
    return .other
  | 0x5d =>
    let _ ← typeIndex signedIndex
    return .other
  | _ => failure

/-- A type after its leading byte, which may say that it is shared. -/
def compositeType (code : Nat) : Decoder DefinedType := do
  if code = 0x65 then compositeOf (← byte) else compositeOf code

/-- A type that may name a supertype. -/
def subType : Decoder DefinedType := do
  let code ← byte
  if code = 0x50 ∨ code = 0x4f then
    let _ ← vectorUpTo 1 (typeIndex index)
    compositeType (← byte)
  else compositeType code

/-- A recursion group, or a type that is a group of its own. -/
def typeGroup : Decoder (List DefinedType) := do
  if (← peek) = 0x4e then
    let _ ← byte
    vectorUpTo groupLimit subType
  else return [← subType]

/-! ## Memories, tables, globals and tags -/

/-- Is the bit set? -/
def hasFlag (flags bit : Nat) : Bool := flags.testBit bit

/-- Limits after their flags: bit 0 tells of a maximum, bit 2 of 64-bit numbers. -/
def limitsOf (flags : Nat) : Decoder Limits := do
  let width := if hasFlag flags 2 then 64 else 32
  let initial ← unsigned width
  let maximum ← if hasFlag flags 0 then some <$> unsigned width else pure none
  return { initial, maximum }

/-- The type of a memory. Bit 3 of the flags tells of a page size. -/
def memoryType : Decoder Limits := do
  let flags ← byte
  guard (flags < 16)
  let limits ← limitsOf flags
  if hasFlag flags 3 then
    let _ ← index
  return limits

/-- The type of a table. -/
def tableType : Decoder Limits := do
  let _ ← refType
  let flags ← byte
  guard (flags < 8)
  limitsOf flags

/-- The type of a global, and whether it is mutable. -/
def globalType : Decoder (AnyType × Bool) := do
  let type ← valueType
  let flags ← byte
  guard (flags < 4)
  return (type, hasFlag flags 0)

/-- The type of a tag: the index of its signature. -/
def tagType : Decoder Nat := do
  let kind ← byte
  guard (kind = 0)
  index

end Decoder

end Moonstack
