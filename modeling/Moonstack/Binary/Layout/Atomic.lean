import Moonstack.Binary.Layout

/-!
# Atomic instructions

Layouts of instructions on memory and objects shared between threads, by their second code.
-/

namespace Moonstack.Layout

/-- The seven forms of an operation that reads, changes and writes a memory. -/
def atomicChange (first : Nat) (name : String) : List Layout :=
  accesses first [("I32AtomicRmw" ++ name, 2), ("I64AtomicRmw" ++ name, 3),
    ("I32AtomicRmw8" ++ name ++ "U", 0), ("I32AtomicRmw16" ++ name ++ "U", 1),
    ("I64AtomicRmw8" ++ name ++ "U", 0), ("I64AtomicRmw16" ++ name ++ "U", 1),
    ("I64AtomicRmw32" ++ name ++ "U", 2)]

/-- The atomic accesses to a memory. -/
def atomicMemory : List Layout :=
  accesses 0x00 [("MemoryAtomicNotify", 2), ("MemoryAtomicWait32", 2), ("MemoryAtomicWait64", 3)] ++
  run 0x03 [.reserved] ["AtomicFence"] ++
  accesses 0x10 [("I32AtomicLoad", 2), ("I64AtomicLoad", 3), ("I32AtomicLoad8U", 0),
    ("I32AtomicLoad16U", 1), ("I64AtomicLoad8U", 0), ("I64AtomicLoad16U", 1),
    ("I64AtomicLoad32U", 2), ("I32AtomicStore", 2), ("I64AtomicStore", 3), ("I32AtomicStore8", 0),
    ("I32AtomicStore16", 1), ("I64AtomicStore8", 0), ("I64AtomicStore16", 1),
    ("I64AtomicStore32", 2)] ++
  atomicChange 0x1e "Add" ++ atomicChange 0x25 "Sub" ++ atomicChange 0x2c "And" ++
  atomicChange 0x33 "Or" ++ atomicChange 0x3a "Xor" ++ atomicChange 0x41 "Xchg" ++
  atomicChange 0x48 "Cmpxchg"

/-- The operations that read, change and write. -/
def changes : List String := ["Add", "Sub", "And", "Or", "Xor", "Xchg", "Cmpxchg"]

/-- Atomic instructions on globals, tables and objects. -/
def atomicObjects : List Layout :=
  run 0x4f [.ordering, .index "global_index"]
    (["GlobalAtomicGet", "GlobalAtomicSet"] ++ changes.map ("GlobalAtomicRmw" ++ ·)) ++
  run 0x58 [.ordering, .index "table_index"]
    ["TableAtomicGet", "TableAtomicSet", "TableAtomicRmwXchg", "TableAtomicRmwCmpxchg"] ++
  run 0x5c [.ordering, .index "struct_type_index", .index "field_index"]
    (["StructAtomicGet", "StructAtomicGetS", "StructAtomicGetU", "StructAtomicSet"] ++
      changes.map ("StructAtomicRmw" ++ ·)) ++
  run 0x67 [.ordering, .index "array_type_index"]
    (["ArrayAtomicGet", "ArrayAtomicGetS", "ArrayAtomicGetU", "ArrayAtomicSet"] ++
      changes.map ("ArrayAtomicRmw" ++ ·)) ++
  run 0x72 [] ["RefI31Shared"]

/-- All atomic instructions. -/
def atomic : List Layout := atomicMemory ++ atomicObjects

end Moonstack.Layout
