import Moonstack.Binary.Read
import Moonstack.Chunk.Definitions
import Moonstack.Chunk.Initial

/-!
# Assembly

A whole module as a chunk, and as the text of a program. The order of the parts is fixed, whatever the
order of the fields: imports and declarations, functions, globals, element segments, data segments,
exports, the call at start.

* Names of the whitelist are bound first: a function that has the name, or one that is exported
  under it.
* A memory is bound to its handle, a table to its functions, a global to its value at that time.
-/

namespace Moonstack

/-! ## Exports -/

/-- The function that a name of the whitelist stands for. -/
def Registry.whitelisted? (r : Registry) (m : Module) (name : String) : Option FunctionEntry :=
  (r.functions.toList.find? fun entry => entry.name == name).or
    (m.exports.findSome? fun e =>
      if e.kind = .function ∧ e.name = name then r.function? e.index else none)

/-- What an export gives to others. -/
def Registry.exportTarget? (r : Registry) (e : Export) : Option Expr :=
  match e.kind with
  | .function => (r.function? e.index).map fun entry => .name entry.id
  | .memory => (r.memory? e.index).map .name
  | .table => (r.table? e.index).map fun handle => .name handle.functions
  | .global => (r.global? e.index).map globalPlace

/-- What is written for a name of the whitelist. -/
def whitelistItem (r : Registry) (m : Module) (name : String) : Item :=
  match r.whitelisted? m name with
  | some entry => .binding name (.name entry.id)
  | none => .warning (.whitelisted name)

/-- What is written for an export. -/
def exportItem (r : Registry) (e : Export) : Item :=
  match r.exportTarget? e with
  | some target => .binding e.name target
  | none => .warning (.exportTarget e.name e.kind e.index)

/-- The call at start. -/
def startItems (r : Registry) (index : Nat) : List Item :=
  match r.function? index with
  | none => [.warning (.start index)]
  | some entry =>
    let hasParams := entry.signature.any fun s => !s.params.isEmpty
    (if hasParams then [.warning (.startParameters entry.id)] else []) ++ [.call entry.id]

/-- The bindings of a module and its call at start. -/
def moduleExports (env : Env) (m : Module) : List Item :=
  (env.options.whitelist.getD []).map (whitelistItem env.registry m) ++
    m.exports.map (exportItem env.registry) ++
    (m.start?.elim [] (startItems env.registry))

/-! ## Modules -/

/-- The key of a module without a name. -/
def unnamedModule : String := "UNKNOWN"

/-- What is written for a module. -/
def moduleItems (options : Options) (m : Module) : Logged (List Item) := do
  let (declared, registry) := Registry.ofModule m
  Item.logAll declared
  let env : Env := { options, registry }
  let functions ← moduleFunctions env m
  let initial ← moduleInitial env m
  let exports := moduleExports env m
  Item.logAll exports
  return declared ++ functions ++ initial ++ exports

/-- A module as a chunk. -/
def lowerModule (options : Options) (m : Module) : Logged Chunk :=
  Logged.within .chunk do
    let items ← moduleItems options m
    return { name := m.name.getD unnamedModule, items }

/-! ## Programs -/

/-- A module as the text of a program. -/
def programOfModule (options : Options) (m : Module) : Logged String := do
  return (← lowerModule options m).text

/-- The bytes of a binary as the text of a program. -/
def programOfBinary (options : Options) (bytes : List UInt8) : Logged String := do
  programOfModule options (← Logged.within .module (readModule bytes))

end Moonstack
