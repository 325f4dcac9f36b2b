import Moonstack.Chunk.Declaration

/-!
# Initial contents

The initializers of a module: globals, then the element segments of tables, then the data segments
of memories. Each is a region of its own that computes a value and uses it.
-/

namespace Moonstack

/-- The region of an initializer. -/
def initialItem (env : Env) (use : InitialUse) (code : List Instr) : Logged Item := do
  let lowered ← Logged.within (.initializer use.id) (lowerInitializer env use.id code)
  return .initial lowered use

/-! ## Globals -/

/-- How many globals are imported. -/
def Module.importedGlobals (m : Module) : Nat :=
  m.imports.countP fun i => match i.kind with | .global _ _ => true | _ => false

/-- The initializers of globals with consecutive slots. -/
def globalItems (env : Env) (slot : Nat) : List Global → Logged (List Item)
  | [] => return []
  | g :: rest => do
    let item ← initialItem env (.global slot) g.init
    let more ← globalItems env (slot + 1) rest
    return item :: more

/-! ## Segments -/

/-- An element of a table: a function, or `false` where there is none. -/
def elementExpr (r : Registry) (index : Option Nat) : Expr :=
  match index.bind r.function? with
  | some entry => .name entry.id
  | none => .name "false"

/-- The initializer of an element segment. Functions that are missing are warned about. -/
def elementItems (env : Env) (e : ElementSegment) : Logged (List Item) := do
  match env.registry.table? e.table with
  | none =>
    let items := [Item.warning (.elementTable e.table)]
    Item.logAll items
    return items
  | some handle =>
    let missing := e.functions.filterMap fun index =>
      if (index.bind env.registry.function?).isSome then none else index
    let warnings := missing.map fun index => Item.warning (.elementFunction index)
    Item.logAll warnings
    let entries := e.functions.map (elementExpr env.registry)
    let item ← initialItem env (.elements handle entries) e.offset
    return warnings ++ [item]

/-- The initializer of a data segment. -/
def dataItems (env : Env) (d : DataSegment) : Logged (List Item) := do
  match env.registry.memory? d.memory with
  | none =>
    let items := [Item.warning (.dataMemory d.memory)]
    Item.logAll items
    return items
  | some handle =>
    let item ← initialItem env (.data handle d.bytes) d.offset
    return [item]

/-- All initializers of a module. -/
def moduleInitial (env : Env) (m : Module) : Logged (List Item) := do
  let globals ← globalItems env m.importedGlobals m.globals
  let elements ← m.elements.mapM (elementItems env)
  let data ← m.dataSegments.mapM (dataItems env)
  return globals ++ elements.flatten ++ data.flatten

end Moonstack
