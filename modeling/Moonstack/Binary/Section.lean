import Moonstack.Binary.Names
import Moonstack.Binary.Segment
import Moonstack.Log

/-!
# Sections

The sections of a binary, read one after the other into a `Reading`.

* A section is a count and as many items. Each item is taken over before the next one is read, so of
  two faults the first counts. Bytes that are left over count as a faulty item.
* Nothing is checked beyond that: sections may come in any order and more than once.
-/

namespace Moonstack

/-- What has been read of a binary. -/
structure Reading where
  types : Array Signature := #[]
  functionTypes : Array Nat := #[]
  fields : Array Field := #[]
  names : Names := {}
  importedFunctions : Nat := 0
  definedFunctions : Nat := 0

/-- Fails because the bytes are no binary. -/
def malformed {α : Type} (c : Context) : Except Failure α :=
  .error ((Failure.of .malformed).within c)

/-- Runs a decoder; a failure is put into context. -/
def decode {α : Type} (c : Context) (d : Decoder α) (input : Input) : Except Failure (α × Input) :=
  match d input with
  | some r => .ok r
  | none => malformed c

namespace Reading

/-- Adds a field. -/
def addField (r : Reading) (f : Field) : Reading := { r with fields := r.fields.push f }

/-! ## Items -/

/-- Reads items until the contents of a section end. -/
def items {α : Type} (kind : String) (d : Decoder α) (take : Reading → α → Except Failure Reading) :
    Nat → Input → Reading → Except Failure Reading
  | 0, input, r => if input.rest.isEmpty then .ok r else malformed (.item kind)
  | n + 1, input, r => do
    let (a, left) ← decode (.item kind) d input
    items kind d take n left (← take r a)

/-- Reads a section of items. -/
def itemSection {α : Type} (kind : String) (d : Decoder α)
    (take : Reading → α → Except Failure Reading) (contents : Input) (r : Reading) :
    Except Failure Reading := do
  let (count, left) ← decode .payload Decoder.index contents
  items kind d take count left r

/-! ## Types -/

/-- Adds a type. One that is no signature keeps its index. -/
def addType (r : Reading) : DefinedType → Except Failure Reading
  | .signature params results => do
    let params ← params.mapM AnyType.lowered
    let results ← results.mapM AnyType.lowered
    return { r with types := r.types.push { params, results } }
  | .other => .ok ({ r with types := r.types.push {} }.addField (.unsupported "non-function type"))

/-- Adds the types of a group. -/
def addTypes (r : Reading) (group : List DefinedType) : Except Failure Reading :=
  group.foldlM addType r

/-! ## Imports and exports -/

/-- What an import or an export refers to. -/
inductive Kind where
  | function | table | memory | global | tag

/-- What an import or an export refers to. -/
def kind : Decoder Kind := do
  match ← Decoder.byte with
  | 0 => return .function
  | 1 => return .table
  | 2 => return .memory
  | 3 => return .global
  | 4 => return .tag
  | _ => failure

/-- What an import brings in. -/
inductive RawImport where
  | function (type : Nat)
  | table (limits : Limits)
  | memory (limits : Limits)
  | global (type : AnyType) (mutable : Bool)
  | tag (type : Nat)

/-- An import: the module, the name, and what it brings in. -/
def importItem : Decoder (String × String × RawImport) := do
  let source ← Decoder.name
  let name ← Decoder.name
  let item ← match ← kind with
    | .function => RawImport.function <$> Decoder.index
    | .table => RawImport.table <$> Decoder.tableType
    | .memory => RawImport.memory <$> Decoder.memoryType
    | .global => (fun (type, mutable) => RawImport.global type mutable) <$> Decoder.globalType
    | .tag => RawImport.tag <$> Decoder.tagType
  return (source, name, item)

/-- The description of an import of a tag. -/
def tagImport (source name : String) (type : Nat) : String :=
  s!"import {source}.{name} of kind Tag(TagType \x7b kind: Exception, func_type_idx: " ++
    toString type ++ " \x7d)"

/-- Adds an import. Tags are not supported. -/
def addImport (r : Reading) : String × String × RawImport → Except Failure Reading
  | (source, name, .function type) =>
    .ok ({ r with importedFunctions := r.importedFunctions + 1 }.addField
      (.imported { source, name, kind := .function type }))
  | (source, name, .table limits) =>
    .ok (r.addField (.imported { source, name, kind := .table limits }))
  | (source, name, .memory limits) =>
    .ok (r.addField (.imported { source, name, kind := .memory limits }))
  | (source, name, .global type mutable) => do
    let type ← type.lowered
    return r.addField (.imported { source, name, kind := .global type mutable })
  | (source, name, .tag type) => .ok (r.addField (.unsupported (tagImport source name type)))

/-- An export: its name, the kind and the index of what it gives. -/
def exportEntry : Decoder (String × Kind × Nat) := do
  let name ← Decoder.name
  let what ← kind
  return (name, what, ← Decoder.index)

/-- Adds an export. Tags are not supported. -/
def addExport (r : Reading) : String × Kind × Nat → Except Failure Reading
  | (name, .function, index) => .ok (r.addField (.exported { name, kind := .function, index }))
  | (name, .table, index) => .ok (r.addField (.exported { name, kind := .table, index }))
  | (name, .memory, index) => .ok (r.addField (.exported { name, kind := .memory, index }))
  | (name, .global, index) => .ok (r.addField (.exported { name, kind := .global, index }))
  | (name, .tag, _) => .ok (r.addField (.unsupported s!"export {name} of kind Tag"))

/-! ## Tables, globals and segments -/

/-- A table, perhaps with an initializer, which is not looked at. -/
def tableItem : Decoder Limits := do
  if (← Decoder.peek) = 0x40 then
    let _ ← Decoder.byte
    let reserved ← Decoder.byte
    guard (reserved = 0)
    let limits ← Decoder.tableType
    let _ ← Decoder.expression
    return limits
  else Decoder.tableType

/-- A global: its type, whether it is mutable, and its initializer. -/
def globalItem : Decoder ((AnyType × Bool) × List PlacedOperator) := do
  let type ← Decoder.globalType
  return (type, ← Decoder.expression)

/-- Adds a global. -/
def addGlobal (r : Reading) : (AnyType × Bool) × List PlacedOperator → Except Failure Reading
  | ((type, mutable), init) => do
    let type ← type.lowered
    return r.addField (.global { type, mutable, init := ← constantInstructions init })

/-- Adds an element segment, if it is active. -/
def addElement (r : Reading) (e : RawElement) : Except Failure Reading := do
  return (← e.lowered).elim r fun segment => r.addField (.element segment)

/-- Adds a data segment, if it is active. -/
def addData (r : Reading) (d : RawData) : Except Failure Reading := do
  return (← d.lowered).elim r fun segment => r.addField (.data segment)

/-! ## Bodies -/

/-- Reads groups of locals, each a count and a type. -/
def localGroups : Nat → Input → Except Failure (List ValueType × Input)
  | 0, input => .ok ([], input)
  | n + 1, input => do
    let group : Decoder (Nat × AnyType) := do
      let count ← Decoder.index
      return (count, ← Decoder.valueType)
    let ((count, type), left) ← decode .localGroup group input
    let type ← type.lowered
    let (rest, left) ← localGroups n left
    return (List.replicate count type ++ rest, left)

/-- Reads the body of a function of the given type. -/
def functionBody (type : Nat) (contents : Input) : Except Failure Function := do
  let (count, left) ← decode .localGroups Decoder.index contents
  let (locals, left) ← localGroups count left
  let body ← (Stream.ofInput left).instructions
  return { name := none, type, locals, body }

/-- Adds the next body. The function section has declared its type. -/
def addBody (r : Reading) (contents : Input) : Except Failure Reading := do
  match r.functionTypes[r.definedFunctions]? with
  | none => .error (.of (.undeclaredBody r.definedFunctions))
  | some type =>
    let f ← within (.body (r.importedFunctions + r.definedFunctions)) (functionBody type contents)
    return { r with definedFunctions := r.definedFunctions + 1 }.addField (.function f)

/-- Reads bodies. A body may be longer than the section only at the price of a failure, and it is
looked at before the next one is. -/
def bodies : Nat → Nat → Input → Reading → Except Failure (Input × Reading)
  | 0, left, input, r => if left = 0 then .ok (input, r) else malformed .payload
  | n + 1, left, input, r => do
    let (contents, rest) ← decode .payload Decoder.sized input
    let size := rest.position - input.position
    if left < size then malformed .payload
    else bodies n (left - size) rest (← r.addBody contents)

/-- Reads the code section, whose contents have the given size. -/
def code (size : Nat) (input : Input) (r : Reading) : Except Failure (Input × Reading) := do
  let (count, rest) ← decode .payload Decoder.index input
  let used := rest.position - input.position
  if size < used then malformed .payload else bodies count (size - used) rest r

/-! ## Sections -/

/-- Reads contents that are one number. -/
def single (contents : Input) : Except Failure Nat :=
  match Decoder.index.runWhole contents with
  | some n => .ok n
  | none => malformed .payload

/-- Reads a section that has a name of its own. -/
def custom (contents : Input) (r : Reading) : Logged Reading := do
  let (name, left) ← Logged.ofExcept (decode .payload Decoder.name contents)
  if name = "name" then
    let (names, complete) := r.names.addSection left
    if !complete then Logged.record .warn "ignoring malformed name section"
    return { r with names }
  else return r

/-- Reads the contents of a section other than code. -/
def plain (id : Nat) (contents : Input) (r : Reading) : Except Failure Reading :=
  match id with
  | 1 => itemSection "rec group" Decoder.typeGroup addTypes contents r
  | 2 => itemSection "import" importItem addImport contents r
  | 3 =>
    itemSection "function type index" Decoder.index
      (fun r type => .ok { r with functionTypes := r.functionTypes.push type }) contents r
  | 4 =>
    itemSection "table type" tableItem (fun r limits => .ok (r.addField (.table limits)))
      contents r
  | 5 =>
    itemSection "memory type" Decoder.memoryType (fun r limits => .ok (r.addField (.memory limits)))
      contents r
  | 6 => itemSection "global" globalItem addGlobal contents r
  | 7 => itemSection "export" exportEntry addExport contents r
  | 8 => do return r.addField (.start (← single contents))
  | 9 => itemSection "element segment" Decoder.element addElement contents r
  | 11 => itemSection "data segment" Decoder.dataSegment addData contents r
  | 12 => do
    let _ ← single contents
    return r
  | 13 => do
    let _ ← decode .payload Decoder.index contents
    return r.addField (.unsupported "tag section")
  | _ => .ok (r.addField (.unsupported s!"unknown section {id}"))

end Reading

end Moonstack
