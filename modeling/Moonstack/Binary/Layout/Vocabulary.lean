import Moonstack.Binary.Layout.Atomic
import Moonstack.Binary.Layout.Reference
import Moonstack.Binary.Layout.Vector
import Moonstack.Binary.Opcode
import Moonstack.Instr.Mnemonic

/-!
# The vocabulary

Layouts of the instructions of the vocabulary. With them any instruction can be described
(`Decoder.description`).
-/

namespace Moonstack

/-- The alignment of an access of a width: the power of two that its bytes are. -/
def Width.alignment : Width → Nat
  | w8 => 0
  | w16 => 1
  | w32 => 2
  | w64 => 3

namespace Layout

/-- The words of a mnemonic, written together. -/
def joined (mnemonic : String) : String :=
  String.join ((mnemonic.splitToList fun c => c == '.' || c == '_').map String.capitalize)

/-- The instructions of control flow. -/
def control : List Layout :=
  [⟨0x00, "Unreachable", []⟩, ⟨0x01, "Nop", []⟩, ⟨0x02, "Block", [.blockType]⟩,
    ⟨0x03, "Loop", [.blockType]⟩, ⟨0x04, "If", [.blockType]⟩, ⟨0x05, "Else", []⟩,
    ⟨0x0b, "End", []⟩, ⟨0x0c, "Br", [.index "relative_depth"]⟩,
    ⟨0x0d, "BrIf", [.index "relative_depth"]⟩, ⟨0x0e, "BrTable", [.branchTable]⟩,
    ⟨0x0f, "Return", []⟩, ⟨0x10, "Call", [.index "function_index"]⟩,
    ⟨0x11, "CallIndirect", [.index "type_index", .index "table_index"]⟩, ⟨0x1a, "Drop", []⟩,
    ⟨0x1b, "Select", []⟩, ⟨0x1c, "TypedSelect", [.selectType]⟩]

/-- Variables, memories and constants. -/
def storage : List Layout :=
  run 0x20 [.index "local_index"] ["LocalGet", "LocalSet", "LocalTee"] ++
  run 0x23 [.index "global_index"] ["GlobalGet", "GlobalSet"] ++
  run 0x3f [.index "mem"] ["MemorySize", "MemoryGrow"] ++
  [⟨0x41, "I32Const", [.constant .i32]⟩, ⟨0x42, "I64Const", [.constant .i64]⟩,
    ⟨0x43, "F32Const", [.constant .f32]⟩, ⟨0x44, "F64Const", [.constant .f64]⟩]

/-- The loads and stores. -/
def memoryAccesses : List Layout :=
  accesses firstLoad (loads.map fun (type, width, signed) =>
    (joined (Op.load type width signed ⟨0, 0⟩).mnemonic, width.alignment)) ++
  accesses firstStore (stores.map fun (type, width) =>
    (joined (Op.store type width ⟨0, 0⟩).mnemonic, width.alignment))

/-- Instructions without immediates that compute. -/
def numeric : List Layout := run firstNumeric [] (numericOps.map fun op => joined op.mnemonic)

/-- Instructions with an opcode of one byte. -/
def vocabulary : List Layout := control ++ storage ++ memoryAccesses ++ numeric

/-- The truncations that clamp, by their second code. -/
def clamped : List Layout :=
  run 0 [] ["I32TruncSatF32S", "I32TruncSatF32U", "I32TruncSatF64S", "I32TruncSatF64U",
    "I64TruncSatF32S", "I64TruncSatF32U", "I64TruncSatF64S", "I64TruncSatF64U"]

end Layout

namespace Decoder

/-- The layout of an instruction, after its first code. -/
def anyLayout (code : Nat) : Decoder Layout := do
  match code with
  | 0xfb => layout Layout.managed (← index)
  | 0xfc => layout (Layout.clamped ++ Layout.bulk) (← index)
  | 0xfd => layout Layout.vector (← index)
  | 0xfe => layout Layout.atomic (← index)
  | _ => layout (Layout.vocabulary ++ Layout.singleByte) code

/-- Reads an instruction and describes it. -/
def description : Decoder Description := do described (← anyLayout (← byte))

end Decoder

end Moonstack
