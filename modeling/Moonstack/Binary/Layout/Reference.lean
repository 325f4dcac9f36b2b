import Moonstack.Binary.Layout

/-!
# References, exceptions and bulk operations

Layouts of instructions outside the vocabulary for exceptions, tail calls, references, tables,
managed objects, continuations and bulk memory.
-/

namespace Moonstack.Layout

/-- Instructions for exceptions and calls, with an opcode of one byte. -/
def exceptions : List Layout :=
  [⟨0x06, "Try", [.blockType]⟩, ⟨0x07, "Catch", [.index "tag_index"]⟩,
    ⟨0x08, "Throw", [.index "tag_index"]⟩, ⟨0x09, "Rethrow", [.index "relative_depth"]⟩,
    ⟨0x0a, "ThrowRef", []⟩, ⟨0x12, "ReturnCall", [.index "function_index"]⟩,
    ⟨0x13, "ReturnCallIndirect", [.index "type_index", .index "table_index"]⟩,
    ⟨0x14, "CallRef", [.index "type_index"]⟩, ⟨0x15, "ReturnCallRef", [.index "type_index"]⟩,
    ⟨0x18, "Delegate", [.index "relative_depth"]⟩, ⟨0x19, "CatchAll", []⟩,
    ⟨0x1f, "TryTable", [.handler]⟩]

/-- Instructions for references and tables, with an opcode of one byte. -/
def references : List Layout :=
  [⟨0x25, "TableGet", [.index "table"]⟩, ⟨0x26, "TableSet", [.index "table"]⟩,
    ⟨0xd0, "RefNull", [.heapType]⟩, ⟨0xd1, "RefIsNull", []⟩,
    ⟨0xd2, "RefFunc", [.index "function_index"]⟩, ⟨0xd3, "RefEq", []⟩, ⟨0xd4, "RefAsNonNull", []⟩,
    ⟨0xd5, "BrOnNull", [.index "relative_depth"]⟩, ⟨0xd6, "BrOnNonNull", [.index "relative_depth"]⟩]

/-- Instructions for continuations, with an opcode of one byte. -/
def continuations : List Layout :=
  [⟨0xe0, "ContNew", [.index "cont_type_index"]⟩,
    ⟨0xe1, "ContBind", [.index "argument_index", .index "result_index"]⟩,
    ⟨0xe2, "Suspend", [.index "tag_index"]⟩,
    ⟨0xe3, "Resume", [.index "cont_type_index", .resumption]⟩,
    ⟨0xe4, "ResumeThrow", [.index "cont_type_index", .index "tag_index", .resumption]⟩,
    ⟨0xe5, "Switch", [.index "cont_type_index", .index "tag_index"]⟩]

/-- All of them, by their opcode. -/
def singleByte : List Layout := exceptions ++ references ++ continuations

/-- Instructions on managed objects, by their second code. -/
def managed : List Layout :=
  let struct := Immediate.index "struct_type_index"
  let array := Immediate.index "array_type_index"
  run 0x00 [struct] ["StructNew", "StructNewDefault"] ++
  run 0x02 [struct, .index "field_index"]
    ["StructGet", "StructGetS", "StructGetU", "StructSet"] ++
  run 0x06 [array] ["ArrayNew", "ArrayNewDefault"] ++
  run 0x08 [array, .index "array_size"] ["ArrayNewFixed"] ++
  run 0x09 [array, .index "array_data_index"] ["ArrayNewData"] ++
  run 0x0a [array, .index "array_elem_index"] ["ArrayNewElem"] ++
  run 0x0b [array] ["ArrayGet", "ArrayGetS", "ArrayGetU", "ArraySet"] ++
  run 0x0f [] ["ArrayLen"] ++
  run 0x10 [array] ["ArrayFill"] ++
  run 0x11 [.index "array_type_index_dst", .index "array_type_index_src"] ["ArrayCopy"] ++
  run 0x12 [array, .index "array_data_index"] ["ArrayInitData"] ++
  run 0x13 [array, .index "array_elem_index"] ["ArrayInitElem"] ++
  run 0x14 [.heapType] ["RefTestNonNull", "RefTestNullable", "RefCastNonNull", "RefCastNullable"] ++
  run 0x18 [.cast] ["BrOnCast", "BrOnCastFail"] ++
  run 0x1a [] ["AnyConvertExtern", "ExternConvertAny", "RefI31", "I31GetS", "I31GetU"]

/-- Bulk operations and wide arithmetic, by their second code. -/
def bulk : List Layout :=
  [⟨0x08, "MemoryInit", [.index "data_index", .index "mem"]⟩,
    ⟨0x09, "DataDrop", [.index "data_index"]⟩,
    ⟨0x0a, "MemoryCopy", [.index "dst_mem", .index "src_mem"]⟩,
    ⟨0x0b, "MemoryFill", [.index "mem"]⟩,
    ⟨0x0c, "TableInit", [.index "elem_index", .index "table"]⟩,
    ⟨0x0d, "ElemDrop", [.index "elem_index"]⟩,
    ⟨0x0e, "TableCopy", [.index "dst_table", .index "src_table"]⟩,
    ⟨0x0f, "TableGrow", [.index "table"]⟩, ⟨0x10, "TableSize", [.index "table"]⟩,
    ⟨0x11, "TableFill", [.index "table"]⟩, ⟨0x12, "MemoryDiscard", [.index "mem"]⟩,
    ⟨0x13, "I64Add128", []⟩, ⟨0x14, "I64Sub128", []⟩, ⟨0x15, "I64MulWideS", []⟩,
    ⟨0x16, "I64MulWideU", []⟩]

end Moonstack.Layout
