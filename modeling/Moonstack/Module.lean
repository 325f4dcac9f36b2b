import Moonstack.Instr

/-!
# Modules

A decoded module: its signatures and its fields, in the order in which they were read. Nothing here
is checked; indices may point nowhere and bodies need not be well typed.

The fields of each kind are listed by a function of their own (`Module.imports` and so on).
-/

namespace Moonstack

/-- What is imported. -/
inductive ImportKind where
  | function (type : Nat)
  | table (limits : Limits)
  | memory (limits : Limits)
  | global (type : ValueType) (mutable : Bool)

/-- An import: where it comes from, and what it is. -/
structure Import where
  source : String
  name : String
  kind : ImportKind

/-! ## Definitions -/

/-- A function the module defines. -/
structure Function where
  name : Option String
  type : Nat
  /-- types of the declared locals, parameters left out -/
  locals : List ValueType
  body : List Instr

/-- A global variable with its initializer. -/
structure Global where
  type : ValueType
  mutable : Bool
  init : List Instr

/-- The index space an export points into. -/
inductive ExportKind where
  | function | table | memory | global
deriving DecidableEq

/-- A name under which the module gives something to others. -/
structure Export where
  name : String
  kind : ExportKind
  index : Nat

/-! ## Segments -/

/-- A segment of function references stored into a table at start. -/
structure ElementSegment where
  table : Nat
  offset : List Instr
  /-- function indices, `none` for a null reference -/
  functions : List (Option Nat)

/-- A segment of bytes stored into a memory at start. -/
structure DataSegment where
  memory : Nat
  offset : List Instr
  bytes : List UInt8

/-! ## Fields -/

/-- One entity of a module. -/
inductive Field where
  | imported (value : Import)
  | function (value : Function)
  | table (limits : Limits)
  | memory (limits : Limits)
  | global (value : Global)
  | exported (value : Export)
  | start (function : Nat)
  | element (value : ElementSegment)
  | data (value : DataSegment)
  | unsupported (description : String)

/-- A module: its types, and its entities in the order of the binary. -/
structure Module where
  name : Option String := none
  types : List Signature := []
  fields : List Field := []

namespace Module

/-- The imports, in order. -/
def imports (m : Module) : List Import :=
  m.fields.filterMap fun | .imported i => some i | _ => none

/-- The functions that are defined, in order. -/
def functions (m : Module) : List Function :=
  m.fields.filterMap fun | .function f => some f | _ => none

/-- The globals that are defined, in order. -/
def globals (m : Module) : List Global :=
  m.fields.filterMap fun | .global g => some g | _ => none

/-- The exports, in order. -/
def exports (m : Module) : List Export :=
  m.fields.filterMap fun | .exported e => some e | _ => none

/-- The segments of function references, in order. -/
def elements (m : Module) : List ElementSegment :=
  m.fields.filterMap fun | .element e => some e | _ => none

/-- The segments of bytes, in order. -/
def dataSegments (m : Module) : List DataSegment :=
  m.fields.filterMap fun | .data d => some d | _ => none

/-- The function to call at start; the first one named counts. -/
def start? (m : Module) : Option Nat :=
  m.fields.findSome? fun | .start f => some f | _ => none

/-- The first name that a function is exported under. -/
def exportName? (m : Module) (index : Nat) : Option String :=
  m.exports.findSome? fun e => if e.kind = .function ∧ e.index = index then some e.name else none

end Module

end Moonstack
