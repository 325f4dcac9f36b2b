import Moonstack.Code.Line
import Moonstack.Lowering.Arithmetic

/-!
# Storage

How memories and globals are read and written in the generated code. A load takes up to three
statements, all of which assign the same destination; a store takes one. An access that does not
exist at its type has none.
-/

namespace Moonstack

open Moonstack.Expr

/-- Where a global is stored. -/
def globalPlace (slot : Nat) : Expr := index (helper .globals) (number slot)

/-- An address with its static offset. -/
def addressOf (base : Expr) (offset : Nat) : Expr :=
  if offset = 0 then base else .binary .add base (number offset)

/-! ## Loads -/

/-- The helper that reads an integer of at most 32 bits. -/
def Width.reader : Width → Option Helper
  | w8 => some .memoryRead8
  | w16 => some .memoryRead16
  | w32 => some .memoryRead32
  | w64 => none

/-- The statements that read an integer of at most 32 bits. -/
def loadNarrow (dest memory address : Expr) (width : Width) (signed : Bool) : Option (List Stmt) :=
  width.reader.map fun h =>
    .assign [dest] (callHelper h [memory, address]) ::
      if signed ∧ width.bits < 32 then [.assign [dest] (signExtended dest width.bits)] else []

/-- The statements that load a value of a type. -/
def lowerLoad (dest : Expr) (type : ValueType) (width : Width) (signed : Bool)
    (memory address : Expr) : Option (List Stmt) :=
  match type, width with
  | .i32, _ => loadNarrow dest memory address width signed
  | .i64, .w64 =>
    some [.assign [dest] ValueType.i64.zero, .run (method dest "load" [memory, address])]
  | .i64, _ =>
    let high := if signed then callField "bit" "arshift" [dest, number 31] else number 0
    (loadNarrow dest memory address width signed).map
      (· ++ [.assign [dest] (callHelper .longInt [dest, high])])
  | .f32, .w32 => some [.assign [dest] (callHelper .memoryRead32F [memory, address])]
  | .f64, .w64 => some [.assign [dest] (callHelper .memoryRead64F [memory, address])]
  | .f32, _ | .f64, _ => none

/-! ## Stores and sizes -/

/-- The statement that stores a value of a type. -/
def lowerStore (type : ValueType) (width : Width) (memory address value : Expr) : Option Stmt :=
  match type, width with
  | .i32, .w8 => some (.run (callHelper .memoryWrite8 [memory, address, value]))
  | .i32, .w16 => some (.run (callHelper .memoryWrite16 [memory, address, value]))
  | .i32, .w32 => some (.run (callHelper .memoryWrite32 [memory, address, value]))
  | .i64, .w8 => some (.run (callMethod value "store8" [memory, address]))
  | .i64, .w16 => some (.run (callMethod value "store16" [memory, address]))
  | .i64, .w32 => some (.run (callMethod value "store32" [memory, address]))
  | .i64, .w64 => some (.run (callMethod value "store" [memory, address]))
  | .f32, .w32 => some (.run (callHelper .memoryWrite32F [memory, address, value]))
  | .f64, .w64 => some (.run (callHelper .memoryWrite64F [memory, address, value]))
  | .i32, .w64 | .f32, _ | .f64, _ => none

/-- The size of a memory, in pages. -/
def memorySize (memory : Expr) : Expr := field memory "_page_count"

/-- Grows a memory, giving the size before or minus one. -/
def memoryGrow (memory delta : Expr) : Expr :=
  callHelper .memoryGrow [memory, callHelper .unsigned [delta]]

end Moonstack
