import Moonstack.Function.Lowered
import Moonstack.Prelude.Memory

/-!
# Chunks

The generated program: the prelude, and after it one region for the module.

A function with long jumps has two definitions: its body, and a trampoline that runs the body under
`pcall` and enters it again when a long jump to it arrives.
-/

namespace Moonstack

/-! ## Anomalies -/

/-- The kind of an export as messages show it. -/
def ExportKind.word : ExportKind → String
  | function => "Func"
  | table => "Table"
  | memory => "Memory"
  | global => "Global"

/-- Something about a module that does not keep it from being written. -/
inductive Anomaly where
  | importType (source : Expr) (type : Nat)
  | unsupported (description : String)
  | elementTable (index : Nat)
  | elementFunction (index : Nat)
  | dataMemory (index : Nat)
  | whitelisted (name : String)
  | exportTarget (name : String) (kind : ExportKind) (index : Nat)
  | start (index : Nat)
  | startParameters (id : String)

/-- What is logged about an anomaly. -/
def Anomaly.message : Anomaly → String
  | importType source type => s!"import {source.text} has unknown type {type}"
  | unsupported description => s!"unsupported {description}"
  | elementTable index => s!"element segment for missing table {index}"
  | elementFunction index => s!"element refers to missing function {index}"
  | dataMemory index => s!"data segment for missing memory {index}"
  | whitelisted name => s!"whitelisted function {name} not found"
  | exportTarget name kind index => s!"export {name} refers to missing {kind.word} {index}"
  | start index => s!"start function {index} not found"
  | startParameters id => s!"start function {id} takes parameters"

/-! ## Definitions -/

/-- What a definition does. -/
inductive DefinitionBody where
  | code (f : Lowered)
  | stub (statement : String)
  | trampoline (inner : String) (resultCount : Nat)

/-- The definition of a function in the generated code. -/
structure Definition where
  name : String
  params : List String
  body : DefinitionBody

/-- The name of the body of a function with long jumps. -/
def resumableName (id : String) : String := id ++ "__setjmp_internal"

namespace Definition

/-- The names of the results of a call under `pcall`; the first also holds the error. -/
def resultNames (count : Nat) : List String := (List.range count).map fun n => s!"ret{n}"

/-- Writes the lines that run a resumable body. -/
def writeTrampoline (w : Writer) (inner : String) (params : List String) (resultCount : Nat) :
    Writer :=
  let returned := ", ".intercalate (resultNames (max resultCount 1))
  let args := ", ".intercalate (["setjmp_state", "setjmp_frame"] ++ params)
  let w := w.lines ["local setjmp_frame, setjmp_state = \x7b\x7d, nil", "::start::",
    s!"local ok, {returned} = pcall({inner}, {args})", "if not ok then"]
  let w := w.deeper.line "if type(ret0) == \"table\" and ret0.frame == setjmp_frame then"
  let w := (w.deeper.lines ["setjmp_state = ret0", "goto start"]).shallower.line "end"
  let w := (w.line "error(ret0, 0)").shallower.line "end"
  w.line (if resultCount = 0 then "return"
    else "return " ++ ", ".intercalate (resultNames resultCount))

/-- Writes a definition. -/
def write (w : Writer) (d : Definition) : Writer :=
  let params := ", ".intercalate d.params
  let w := (w.line s!"function {d.name}({params})").deeper
  let w :=
    match d.body with
    | .code f => w.block f.text
    | .stub statement => w.line statement
    | .trampoline inner resultCount => writeTrampoline w inner d.params resultCount
  w.shallower.line "end"

end Definition

/-! ## Initializers -/

/-- What the value of an initializer is for. -/
inductive InitialUse where
  | global (slot : Nat)
  | elements (table : TableHandle) (functions : List Expr)
  | data (memory : String) (bytes : List UInt8)

namespace InitialUse

/-- The name of the initializer in messages. -/
def id : InitialUse → String
  | global _ => "__GLOBAL_INIT__"
  | elements _ _ => "__TABLE_INIT__"
  | data _ _ => "__DATA_INIT__"

/-- The statement that uses the value. -/
def statement (value : Expr) : InitialUse → String
  | global slot => s!"{(globalPlace slot).text} = {value.text}"
  | elements table functions =>
    (Expr.callHelper .tableInit [.name table.functions, .binary .add (.name table.offset) value,
      .table functions]).text
  | data memory bytes => (Expr.callHelper .memoryInit [.name memory, value, .bytes bytes]).text

end InitialUse

/-! ## Items -/

/-- A part of the region of a module. -/
inductive Item where
  | warning (a : Anomaly)
  | memory (handle : String) (value : Expr)
  | table (handle : TableHandle) (functions : Expr)
  | global (slot : Nat) (value : Expr)
  | define (d : Definition)
  | initial (code : Lowered) (use : InitialUse)
  | binding (name : String) (target : Expr)
  | call (id : String)

namespace Item

/-- The anomaly that an item comments on. -/
def anomaly? : Item → Option Anomaly
  | warning a => some a
  | _ => none

/-- The value of an initializer. -/
def initialValue (code : Lowered) : Expr := .operand (code.value.getD (.literal .nil))

/-- Writes an item. -/
def write (w : Writer) : Item → Writer
  | warning a => w.line s!"-- WARNING: {a.message}"
  | memory handle value => w.line s!"local {handle} = {value.text}"
  | table handle functions =>
    w.line s!"local {handle.functions}, {handle.offset} = {functions.text}, 1"
  | global slot value => w.line s!"{(globalPlace slot).text} = {value.text}"
  | define d => d.write w
  | initial code use =>
    let w := (w.line "do").deeper.block code.text
    (w.line (use.statement (initialValue code))).shallower.line "end"
  | binding name target =>
    w.line s!"{(Expr.index (.helper .exports) (.string name)).text} = {target.text}"
  | call id => w.line s!"{id}()"

/-- Logs the anomalies among items. -/
def logAll (items : List Item) : Logged Unit :=
  (items.filterMap anomaly?).forM fun a => Logged.record .warn a.message

end Item

/-! ## Chunks -/

/-- The generated program of a module. -/
structure Chunk where
  name : String
  items : List Item

/-- The text of a program. -/
def Chunk.text (c : Chunk) : String :=
  let w := (({} : Writer).raw Prelude.text).newline
  let w := (w.line "do").deeper
  let w := w.line s!"local {Helper.exports.name} = \x7b\x7d"
  let w := w.line s!"{(Expr.member (.helper .modules) c.name).text} = {Helper.exports.name}"
  ((c.items.foldl Item.write w).shallower.line "end").text

end Moonstack
