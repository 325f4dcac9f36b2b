import Moonstack.Function.Body
import Moonstack.Module
import Moonstack.Text.Writer

/-!
# Lowered functions

A function or an initializer as code.

The slots in use are known only when the body has been written, so the declaration of their locals,
and for a function with long jumps the head that resumes it, are put in front of the body
afterwards.
-/

namespace Moonstack

/-- The code of a function or an initializer. -/
structure Lowered where
  params : List String
  header : List Placed
  lines : List Placed
  resultCount : Nat
  usesSetjmp : Bool
  value : Option Operand
  declared : List Nat
  warnings : Nat

namespace Lowered

/-- Adds a line at its own indentation. -/
def writeLine (w : Writer) (p : Placed) : Writer := { w with indent := p.indent }.line p.line.text

/-- The text of a function body: the header is put in front of the code. -/
def text (f : Lowered) : String :=
  let start : Writer := {}
  let written := f.lines.foldl writeLine start
  (written.insertLines start.mark (f.header.map fun p => indentation p.indent ++ p.line.text)).text

end Lowered

/-! ## Headers -/

/-- Lua refuses a function with this many locals. -/
def localLimit : Nat := 200

/-- From one more than this many locals on, a warning is given. -/
def localWarning : Nat := 150

/-- The head that resumes a function: it restores all slots and goes to the place in the record. -/
def resumeHeader (slotCount : Nat) (sites : List ResumeSite) : List Placed :=
  let record := Expr.name jumpRecord
  let restore := (List.range slotCount).map fun n =>
    Placed.mk 1 (.stmt (.assign [.slot n] (.field (.field record "data") (slotName n))))
  let dispatch := sites.zipIdx.map fun (site, n) =>
    let target := Label.resume site.offset
    let condition := Expr.binary .eq (.field record "target") (.string target.text)
    Placed.mk 1 (.arm (n == 0) condition
      (if site.inLoop then .run (.error "cannot resume a setjmp inside a loop") else .goto target))
  [⟨0, .ifThen record⟩] ++ restore ++ dispatch ++ [⟨1, .close⟩, ⟨0, .close⟩]

/-- The slots that are no parameters. -/
def declaredSlots (f : Frame) : List Nat := (List.range f.registers.slotCount).drop f.paramCount

/-- What stands in front of the body. -/
def header (f : Frame) : List Placed :=
  (if (declaredSlots f).isEmpty then [] else [⟨0, .declare (declaredSlots f)⟩]) ++
    (if f.sites.isEmpty then [] else resumeHeader f.registers.slotCount f.sites.toList)

/-- Logs that a function comes close to the number of locals that Lua allows, or exceeds it. -/
def recordLocals (f : Frame) : Frame :=
  let total := f.paramCount + (declaredSlots f).length + (if f.sites.isEmpty then 0 else 2)
  if localLimit ≤ total then
    f.record .error s!"{total} locals exceed Lua's limit of {localLimit}; the output will not load"
  else if localWarning < total then
    f.record .warn s!"{total} locals, close to Lua's limit of {localLimit}"
  else f

/-! ## Begin and end of a function -/

/-- The state before the first instruction of a body. -/
def startFrame (env : Env) (id : String) (signature : Option Signature)
    (locals : List ValueType) (code : List Instr) : Frame :=
  let f := Frame.start id signature locals env.options.strategy
  { f with
    debug := env.options.debug
    lifetimes := Lifetimes.ofBody code f.localTypes.length f.paramCount }

/-- Refuses a body that is too long. -/
def checkSize (env : Env) (f : Frame) : Except Failure Unit :=
  if env.options.functionLimit < f.lifetimes.ticks then
    .error (.of (.rejected (.tooLong f.lifetimes.ticks env.options.functionLimit)))
  else .ok ()

/-- Runs an emission and moves its records to the log. -/
def Emit.runLogged {α : Type} (x : Emit α) (f : Frame) : Logged (α × Emission) := fun log =>
  match x { frame := f } with
  | .ok a e => .ok (a, e) (log ++ e.frame.log)
  | .error failure e => .error failure (log ++ e.frame.log)

/-- Binds the parameters to registers and gives their locals. -/
def Emit.params (count : Nat) : Emit (List String) := do
  let names ← (List.range count).mapM fun index => do
    let id ← step fun f => f.localRegister index
    return (← frame).nameOf id
  (List.range count).forM fun index => attempt' fun f => f.afterLocalAccess index
  return names

/-- Writes a function. A body that takes more counter steps than the options allow is refused first.
-/
def lowerFunction (env : Env) (id name : String) (function : Function) : Logged Lowered := do
  match env.registry.types[function.type]? with
  | none => throw (.of (.signature name function.type))
  | some signature =>
    let f := startFrame env id (some signature) function.locals function.body
    Logged.ofExcept (checkSize env f)
    let (params, e) ← Emit.runLogged (f := f) do
      let params ← Emit.params f.paramCount
      Emit.body env function.body
      Emit.finishFunction
      Emit.change recordLocals
      Emit.change fun f =>
        f.record .debug s!"{f.clock} instructions, {f.registers.slotCount} registers"
      return params
    return {
      params
      header := header e.frame
      lines := e.lines.toList
      resultCount := signature.results.length
      usesSetjmp := !e.frame.sites.isEmpty
      value := none
      declared := declaredSlots e.frame
      warnings := e.frame.warnings }

/-- Writes an initializer, whose value is what the code leaves on the stack. -/
def lowerInitializer (env : Env) (id : String) (code : List Instr) : Logged Lowered := do
  let f := startFrame env id none [] code
  Logged.ofExcept (checkSize env f)
  let (value, e) ← Emit.runLogged (f := f) do
    Emit.body env code
    let value ← Emit.pop
    Emit.change recordLocals
    return value
  return {
    params := []
    header := header e.frame
    lines := e.lines.toList
    resultCount := 1
    usesSetjmp := false
    value := some value
    declared := declaredSlots e.frame
    warnings := e.frame.warnings }

end Moonstack
