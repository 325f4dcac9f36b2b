import Moonstack.Binary.Types

/-!
# Layouts

What follows the opcode of an instruction, and how it is described in words. The tables of layouts
are in the modules beneath this one.
-/

namespace Moonstack

/-! ## Layouts -/

/-- A part of what follows an opcode. -/
inductive Immediate where
  | index (field : String)
  | constant (type : ValueType)
  /-- a place in a memory, for an access of two to the given power of bytes -/
  | place (alignment : Nat)
  | lane (count : Nat)
  | lanes
  | vector
  | ordering
  | reserved
  | heapType
  | blockType
  | selectType
  | branchTable
  /-- a branch that depends on the type of a reference: depth, and types before and after -/
  | cast
  | handler
  | resumption

/-- An opcode with its name and what follows it. -/
structure Layout where
  code : Nat
  name : String
  immediates : List Immediate := []

/-- Layouts with consecutive codes and the same immediates. -/
def Layout.run (first : Nat) (immediates : List Immediate) (names : List String) : List Layout :=
  names.zipIdx.map fun (name, n) => { code := first + n, name, immediates }

/-- Layouts with consecutive codes of accesses to a memory, each with its alignment. -/
def Layout.accesses (first : Nat) (rows : List (String × Nat)) : List Layout :=
  rows.zipIdx.map fun ((name, alignment), n) =>
    { code := first + n, name, immediates := [.place alignment] }

/-- The layout of a code. -/
def Layout.find? (table : List Layout) (code : Nat) : Option Layout :=
  List.find? (fun l : Layout => l.code == code) table

/-- A place in a memory as it stands in a binary. -/
structure Place where
  alignment : Nat
  offset : Nat
  memory : Nat

/-- A field with its name. -/
abbrev DescribedField := String × Description

/-! ## Parts of an immediate -/

namespace Decoder

/-- A place in a memory. Bit 6 of the alignment tells of the index of the memory. -/
def place : Decoder Place := do
  let flags ← index
  let named := flags.testBit 6
  let memory ← if named then index else pure 0
  let alignment := if named then flags - 64 else flags
  guard (alignment < 64)
  let offset ← unsigned 64
  return { alignment, offset, memory }

/-- The targets of a branch table and the one for all other numbers. -/
def branchTargets : Decoder (List Nat × Nat) := do
  let targets ← vector index
  return (targets, ← index)

/-- The type of a `select`, which is one. -/
def selectType : Decoder AnyType := do
  let count ← index
  guard (count = 1)
  valueType

/-- The number of one of the given number of lanes. -/
def lane (count : Nat) : Decoder Nat := do
  let n ← byte
  guard (n < count)
  return n

/-- The ordering of an atomic access. -/
def ordering : Decoder Description := do
  match ← index with
  | 0 => return .word "SeqCst"
  | 1 => return .word "AcqRel"
  | _ => failure

/-- An index, as a field. -/
def indexField (field : String) : Decoder DescribedField := do
  let n ← index
  return (field, .number n)

/-- A clause of a handler. -/
def catchClause : Decoder Description := do
  match ← byte with
  | 0 => return .record "One" [← indexField "tag", ← indexField "label"]
  | 1 => return .record "OneRef" [← indexField "tag", ← indexField "label"]
  | 2 => return .record "All" [← indexField "label"]
  | 3 => return .record "AllRef" [← indexField "label"]
  | _ => failure

/-- A clause of a resumption. -/
def resumeClause : Decoder Description := do
  match ← byte with
  | 0 => return .record "OnLabel" [← indexField "tag", ← indexField "label"]
  | 1 => return .record "OnSwitch" [← indexField "tag"]
  | _ => failure

/-- The most clauses an instruction may have. -/
def clauseLimit : Nat := 10000

/-- A constant of a type. -/
def constantValue : ValueType → Decoder Description
  | .i32 => do return .number (← signed 32)
  | .i64 => do return .number (← signed 64)
  | .f32 => do
    let bits ← fixed 4
    return .applied "Ieee32" (.number bits)
  | .f64 => do
    let bits ← fixed 8
    return .applied "Ieee64" (.number bits)

/-- The fields of a branch that depends on the type of a reference. The two lowest bits in front
tell which of the types are nullable. -/
def castFields : Decoder (List DescribedField) := do
  let flags ← byte
  guard (flags < 4)
  let depth ← indexField "relative_depth"
  let source : RefType := ⟨flags.testBit 0, ← heapType⟩
  let target : RefType := ⟨flags.testBit 1, ← heapType⟩
  return [depth, ("from_ref_type", .word source.text), ("to_ref_type", .word target.text)]

/-! ## Immediates and instructions -/

/-- Reads an immediate and gives the fields that describe it. -/
def immediate : Immediate → Decoder (List DescribedField)
  | .index field => do return [← indexField field]
  | .constant type => do return [("value", ← constantValue type)]
  | .place alignment => do
    let p ← place
    return [("memarg", .record "MemArg" [("align", .number p.alignment),
      ("max_align", .number alignment), ("offset", .number p.offset),
      ("memory", .number p.memory)])]
  | .lane count => do
    let n ← lane count
    return [("lane", .number n)]
  | .lanes => do return [("lanes", .numbers (← times (lane 32) 16))]
  | .vector => do return [("value", .applied "V128" (.numbers (← times byte 16)))]
  | .ordering => do return [("ordering", ← ordering)]
  | .reserved => do
    let b ← byte
    guard (b = 0)
    return []
  | .heapType => do return [("hty", (← heapType).description)]
  | .blockType => do return [("blockty", (← blockType).description)]
  | .selectType => do return [("ty", .word (← selectType).text)]
  | .branchTable => do
    let (targets, fallback) ← branchTargets
    return [("targets", .record "BrTable" [("count", .number targets.length),
      ("default", .number fallback), ("targets", .numbers targets)])]
  | .cast => castFields
  | .handler => do
    let type ← blockType
    let clauses ← vectorUpTo clauseLimit catchClause
    return [("try_table", .record "TryTable" [("ty", type.description),
      ("catches", .list clauses)])]
  | .resumption => do
    let clauses ← vectorUpTo clauseLimit resumeClause
    return [("resume_table", .record "ResumeTable" [("handlers", .list clauses)])]

/-- The layout of a code in a table. -/
def layout (table : List Layout) (code : Nat) : Decoder Layout := do
  match Layout.find? table code with
  | some l => return l
  | none => failure

/-- Reads what follows an opcode and describes the instruction. -/
def described (l : Layout) : Decoder Description := do
  let fields ← l.immediates.mapM immediate
  return .record l.name fields.flatten

/-- Reads over what follows a code of a table and gives the name of the instruction. -/
def named (table : List Layout) (code : Nat) : Decoder String := do
  let l ← layout table code
  let _ ← described l
  return l.name

end Decoder

end Moonstack
