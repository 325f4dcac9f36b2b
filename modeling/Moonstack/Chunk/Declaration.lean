import Moonstack.Chunk.Basic

/-!
# Declarations

Names for everything a module imports or defines, given before any body is written, so that bodies
can refer to all of it.

* Imports come first in every index space, whatever the order of the fields.
* A function is called by its own name, else by the first name it is exported under, else by its
  index.
-/

namespace Moonstack

/-! ## Imports -/

/-- What an import reads. -/
def Import.place (i : Import) : Expr := .member (.member (.helper .modules) i.source) i.name

/-- Declares an import. -/
def Registry.declareImport (r : Registry) (i : Import) : List Item × Registry :=
  match i.kind with
  | .function type =>
    let signature := r.types[type]?
    let (_, r) := r.addFunction { id := i.place.text, name := i.name, signature, imported := true }
    (if signature.isNone then [.warning (.importType i.place type)] else [], r)
  | .memory _ =>
    let (handle, r) := r.addMemory
    ([.memory handle i.place], r)
  | .table _ =>
    let (handle, r) := r.addTable
    ([.table handle i.place], r)
  | .global _ _ =>
    let (slot, r) := r.addGlobal
    ([.global slot i.place], r)

/-- Declares imports, in order. -/
def Registry.declareImports (r : Registry) : List Import → List Item × Registry
  | [] => ([], r)
  | i :: rest =>
    let (items, r) := r.declareImport i
    let (more, r) := r.declareImports rest
    (items ++ more, r)

/-! ## Definitions -/

/-- What a function is called in messages and, if possible, in the code. -/
def Module.functionName (m : Module) (index : Nat) (f : Function) : String :=
  (f.name.or (m.exportName? index)).getD s!"func_{index}"

/-- Declares a function that the module defines. -/
def Registry.declareFunction (r : Registry) (m : Module) (f : Function) : Registry :=
  let index := r.functions.size
  let name := m.functionName index f
  let (id, r) := r.uniqueId name index
  (r.addFunction { id, name, signature := r.types[f.type]?, imported := false }).2

/-- The amount of memory at start and the most it may grow to, as arguments. -/
def Limits.args (l : Limits) : List Expr :=
  [.number l.initial, l.maximum.elim (.operand (.literal .nil)) .number]

/-- Declares what a field defines. An import has been declared before. -/
def Registry.declareField (r : Registry) (m : Module) : Field → List Item × Registry
  | .function f => ([], r.declareFunction m f)
  | .memory limits =>
    let (handle, r) := r.addMemory
    ([.memory handle (.callHelper .memoryAlloc limits.args)], r)
  | .table _ =>
    let (handle, r) := r.addTable
    ([.table handle (.table [])], r)
  | .global _ => ([], r.addGlobal.2)
  | .unsupported description => ([.warning (.unsupported description)], r)
  | _ => ([], r)

/-- Declares what the fields define, in order. -/
def Registry.declareFields (r : Registry) (m : Module) : List Field → List Item × Registry
  | [] => ([], r)
  | f :: rest =>
    let (items, r) := r.declareField m f
    let (more, r) := r.declareFields m rest
    (items ++ more, r)

/-- Declares the imports of a module and then, in the order of its fields, all that it defines. -/
def Registry.ofModule (m : Module) : List Item × Registry :=
  let (imported, r) := Registry.declareImports { types := m.types } m.imports
  let (defined, r) := r.declareFields m m.fields
  (imported ++ defined, r)

end Moonstack
