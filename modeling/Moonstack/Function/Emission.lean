import Moonstack.Function.Frame
import Moonstack.Registry

/-!
# Emission

Writing the code of a function, line by line, next to the frame that tracks its operand stack.
-/

namespace Moonstack

/-- What the code of a function is written against. -/
structure Env where
  options : Options
  registry : Registry

/-- The code of a function under construction. -/
structure Emission where
  frame : Frame
  lines : Array Placed := #[]
  indent : Nat := 0

/-- A computation that writes code, and may fail. -/
abbrev Emit := EStateM Failure Emission

/-! ## Warnings -/

/-- An anomaly in a function that does not keep it from being written. -/
inductive Warning where
  | unsupported (name : String)
  | readOfUnknownLocal (index : Nat)
  | writeToUnknownLocal (index : Nat)
  | readOfUnknownGlobal (index : Nat)
  | writeToUnknownGlobal (index : Nat)
  | missingMemory (index : Nat)
  | extraValues (block : BlockName) (count : Nat)
  | valueWithoutElse (block : BlockName)
  | unresolvedBranch (depth : Nat)
  | unknownFunction (index : Nat)
  | unknownType (index : Nat)
  | missingTable (index : Nat)
  | jumpWithoutMemory
  | resumeInLoop (offset : Nat)
deriving DecidableEq

/-- The warning in words. -/
def Warning.message : Warning → String
  | unsupported name => s!"unsupported instruction {name}"
  | readOfUnknownLocal index => s!"local.get of unknown local {index}"
  | writeToUnknownLocal index => s!"write to unknown local {index}"
  | readOfUnknownGlobal index => s!"global.get of unknown global {index}"
  | writeToUnknownGlobal index => s!"global.set of unknown global {index}"
  | missingMemory index => s!"access to missing memory {index}"
  | extraValues block count => s!"{block.text} leaves {count} extra value(s) on the stack"
  | valueWithoutElse block => s!"{block.text} yields a value but has no else arm"
  | unresolvedBranch depth => s!"unresolved branch target at depth {depth}"
  | unknownFunction index => s!"call to unknown function {index}"
  | unknownType index => s!"call_indirect with unknown type {index}"
  | missingTable index => s!"call_indirect through missing table {index}"
  | jumpWithoutMemory => "setjmp/longjmp without a linear memory"
  | resumeInLoop offset =>
    s!"setjmp at {(Label.resume offset).text} is inside a loop and cannot be resumed"

/-! ## Steps of the frame -/

namespace Emit

/-- Changes the frame. -/
def change (g : Frame → Frame) : Emit Unit := modify fun e => { e with frame := g e.frame }

/-- Changes the frame and gives a value. -/
def step {α : Type} (g : Frame → α × Frame) : Emit α :=
  modifyGet fun e =>
    let (a, frame) := g e.frame
    (a, { e with frame })

/-- Changes the frame and gives a value, or fails. -/
def attempt {α : Type} (g : Frame → Except RegisterError (α × Frame)) : Emit α := do
  match g (← get).frame with
  | .ok (a, frame) =>
    modify fun e => { e with frame }
    return a
  | .error e => throw (.of (.register e))

/-- Changes the frame, or fails. -/
def attempt' (g : Frame → Except RegisterError Frame) : Emit Unit :=
  attempt fun f => (g f).map ((), ·)

/-- The frame. -/
def frame : Emit Frame := return (← get).frame

/-! ## Lines -/

/-- Writes a line at the current indentation. -/
def line (l : Line) : Emit Unit :=
  modify fun e => { e with lines := e.lines.push ⟨e.indent, l⟩ }

/-- Writes a statement on a line of its own. -/
def stmt (s : Stmt) : Emit Unit := line (.stmt s)

/-- Indents the lines to come by one more level. -/
def deeper : Emit Unit := modify fun e => { e with indent := e.indent + 1 }

/-- Indents the lines to come by one level less. -/
def shallower : Emit Unit := modify fun e => { e with indent := e.indent - 1 }

/-- Counts, logs and writes a warning. -/
def warn (w : Warning) : Emit Unit := do
  change fun f => f.warn w.message
  line (.comment s!"WARNING: {w.message}")

/-! ## Operands and registers -/

/-- Pops an operand. -/
def pop : Emit Operand := attempt Frame.pop

/-- Pops a number of operands and gives them in the order they were pushed. -/
def popMany : Nat → Emit (List Operand)
  | 0 => return []
  | n + 1 => do
    let last ← pop
    let front ← popMany n
    return front ++ [last]

/-- Makes a register for a result. -/
def temporary : Emit RegisterId := step Frame.temporary

/-- The slot of a register. -/
def slotOf (id : RegisterId) : Emit Nat := return (← frame).registers.slotOf id

/-- Assigns a value to a register. -/
def assign (id : RegisterId) (value : Expr) : Emit Unit := do
  stmt (.assign [.slot (← slotOf id)] value)

/-- Assigns an operand to a register, unless the operand is that register's local. -/
def copy (id : RegisterId) (value : Operand) : Emit Unit := do
  let slot ← slotOf id
  if value ≠ .slot slot then stmt (.assign [.slot slot] (.operand value))

end Emit

end Moonstack
