import Moonstack.Function.Control
import Moonstack.Function.Task

/-!
# Bodies

The code of a body, instruction by instruction.
-/

namespace Moonstack.Emit

/-! ## Locals -/

/-- Reads a local. -/
def localGet (index : Nat) : Emit Unit := do
  if (← frame).localTypes.length ≤ index then
    warn (.readOfUnknownLocal index)
    change fun f => f.pushLiteral .nil
  else
    let id ← step fun f => f.localRegister index
    change fun f => f.pushRegister id
    attempt' fun f => f.afterLocalAccess index

/-- Pops a value into the register of a local. -/
def storeLocal (index : Nat) (keep : Bool) (id : RegisterId) : Emit Unit := do
  let value ← pop
  copy id value
  if keep then change fun f => f.pushRegister id
  attempt' fun f => f.afterLocalAccess index

/-- Writes a local. With `keep` the value stays on the stack. Values of the local that are on the
stack are copied first. -/
def localSet (index : Nat) (keep : Bool) : Emit Unit := do
  if (← frame).localTypes.length ≤ index then
    warn (.writeToUnknownLocal index)
    let _ ← pop
    if keep then change fun f => f.pushLiteral .nil
  else
    let id ← step fun f => f.localRegister index
    if let some s ← step fun f => f.detachAliases id then stmt s
    storeLocal index keep id

/-! ## Instructions without a body -/

/-- Writes an instruction that is no task. -/
def special (env : Env) (offset : Nat) : Op → Emit Unit
  | .br depth => branch depth
  | .brIf depth => branchIf depth
  | .brTable targets fallback => branchTable env targets fallback
  | .ret => leaveFunction
  | .localGet index => localGet index
  | .localSet index => localSet index false
  | .localTee index => localSet index true
  | .convert c => convert c
  -- What is left is a call of `setjmp` where there is a memory.
  | _ => (env.registry.memory? 0).forM fun handle => savePlace handle offset

/-- Writes an instruction without a body, which stands at the given byte offset. -/
def op (env : Env) (offset : Nat) (o : Op) : Emit Unit :=
  match o.task env with
  | some t => perform t
  | none => special env offset o

/-! ## Begin and end of an instruction -/

/-- Zeroes locals in front of the current instruction. -/
def zeroLocals : List Nat → Emit Unit
  | [] => return ()
  | index :: rest => do
    let type := ((← frame).localTypes[index]?).getD .i32
    let id ← step fun f => f.localRegister index
    assign id type.zero
    attempt' fun f => f.afterLocalAccess index
    zeroLocals rest

/-- Begins an instruction: one counter step, the locals to zero, and a debug comment. -/
def begin (i : Instr) : Emit Unit := do
  change Frame.tick
  let f ← frame
  zeroLocals (f.lifetimes.forcedAt f.clock)
  if f.debug.instructions then line (.comment s!"{i.mnemonic} @{i.offset}")

/-- Ends an instruction: debug comments, and a look at the registers that wait. -/
def finish : Emit Unit := do
  let notes := (← frame).notes
  change fun f => { f with notes := #[] }
  notes.forM fun note => line (.comment note)
  let f ← frame
  if f.debug.stack then line (.comment s!"stack depth {f.depth}")
  attempt' Frame.drainPending

/-! ## Structured instructions -/

/-- Opens a `block` or a `loop`, up to its body. -/
def enterBlock (name : BlockName) (result : Option ValueType) : Emit Unit := do
  let b ← openBlock name result
  if name.kind = .loop then
    line (.label (.start b.name))
    line .forever
  deeper

/-- Opens an `if`, up to its first arm. If the condition is zero, the arm is skipped: the code goes on
at the label `skip`. -/
def enterIf (offset : Nat) (result : Option ValueType) (skip : BlockName → Label) : Emit Block := do
  let condition ← pop
  let b ← openBlock ⟨.cond, offset⟩ result
  line (.guard (.binary .eq (.operand condition) (.number 0)) (.goto (skip b.name)))
  deeper
  return b

/-- Ends a structured instruction, behind its last body. -/
def leave : Emit Unit := do
  closeBlock
  finish

mutual

/-- Writes an instruction, with the instructions inside it. -/
def instr (env : Env) : Instr → Emit Unit
  | .leaf offset o => do
    begin (.leaf offset o)
    op env offset o
    finish
  | .block offset result inner => do
    begin (.block offset result inner)
    enterBlock ⟨.block, offset⟩ result
    body env inner
    leave
  | .loop offset result inner => do
    begin (.loop offset result inner)
    enterBlock ⟨.loop, offset⟩ result
    body env inner
    leave
  | .ifThen offset result inner => do
    begin (.ifThen offset result inner)
    let _ ← enterIf offset result .fin
    body env inner
    leave
  | .ifElse offset result inner other => do
    begin (.ifElse offset result inner other)
    let b ← enterIf offset result .alternative
    body env inner
    alternative b
    body env other
    leave

/-- Writes the instructions of a body, one after the other. -/
def body (env : Env) : List Instr → Emit Unit
  | [] => return ()
  | i :: rest => do
    instr env i
    body env rest

end

end Moonstack.Emit
