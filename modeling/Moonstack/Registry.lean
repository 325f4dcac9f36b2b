import Moonstack.Text.Identifier
import Moonstack.ValueType

/-!
# Registry

The index spaces of a module in the generated code: what a function, memory, table or global of a
given index is called there. Memories, tables and globals are numbered as they come, so a count of
each is enough.
-/

namespace Moonstack

/-! ## Names in the generated code -/

/-- A function that can be called by index. -/
structure FunctionEntry where
  /-- the expression that names it in the generated code -/
  id : String
  /-- the name it has in the binary, or the one that stands in for it -/
  name : String
  /-- none if its type index points nowhere -/
  signature : Option Signature
  imported : Bool
deriving DecidableEq

/-- The variable of a memory. -/
def memoryHandle (index : Nat) : String := s!"mem_{index}"

/-- The two variables of a table. -/
structure TableHandle where
  functions : String
  offset : String

/-- The variables of a table. -/
def tableHandle (index : Nat) : TableHandle :=
  ⟨s!"__TABLE_FUNCS_{index}__", s!"__TABLE_OFFSET_{index}__"⟩

/-! ## Index spaces -/

/-- What the index spaces of a module hold. -/
structure Registry where
  types : List Signature := []
  functions : Array FunctionEntry := #[]
  memoryCount : Nat := 0
  tableCount : Nat := 0
  globalCount : Nat := 0
  usedIds : List String := []

namespace Registry

/-- The function of an index. -/
def function? (r : Registry) (index : Nat) : Option FunctionEntry := r.functions[index]?

/-- The handle of the memory of an index. -/
def memory? (r : Registry) (index : Nat) : Option String :=
  if index < r.memoryCount then some (memoryHandle index) else none

/-- The handle of the table of an index. -/
def table? (r : Registry) (index : Nat) : Option TableHandle :=
  if index < r.tableCount then some (tableHandle index) else none

/-- The slot of the global of an index. -/
def global? (r : Registry) (index : Nat) : Option Nat :=
  if index < r.globalCount then some index else none

/-- The number of imported functions. -/
def importedCount (r : Registry) : Nat := r.functions.toList.countP FunctionEntry.imported

/-! ## Growth -/

/-- Adds a function; gives its index. -/
def addFunction (r : Registry) (entry : FunctionEntry) : Nat × Registry :=
  (r.functions.size, { r with functions := r.functions.push entry })

/-- Adds a memory; gives its handle. -/
def addMemory (r : Registry) : String × Registry :=
  (memoryHandle r.memoryCount, { r with memoryCount := r.memoryCount + 1 })

/-- Adds a table; gives its handle. -/
def addTable (r : Registry) : TableHandle × Registry :=
  (tableHandle r.tableCount, { r with tableCount := r.tableCount + 1 })

/-- Adds a global; gives its slot. -/
def addGlobal (r : Registry) : Nat × Registry :=
  (r.globalCount, { r with globalCount := r.globalCount + 1 })

/-! ## Identifiers -/

/-- Adds underscores, at most the given number, until a name is not used. Among one more name than
are used one is free, so the number of used names suffices. -/
def unusedFrom (used : List String) : Nat → String → String
  | 0, name => name
  | n + 1, name => if used.contains name then unusedFrom used n (name.push '_') else name

/-- An identifier for a function of the given name and index that no other function has. -/
def uniqueId (r : Registry) (name : String) (index : Nat) : String × Registry :=
  let base := Identifier.sanitize name
  let id :=
    if r.usedIds.contains base then unusedFrom r.usedIds r.usedIds.length s!"{base}_{index}"
    else base
  (id, { r with usedIds := id :: r.usedIds })

end Registry

end Moonstack
