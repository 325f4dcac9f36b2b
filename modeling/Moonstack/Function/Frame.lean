import Moonstack.Code.Line
import Moonstack.Function.Lifetimes
import Moonstack.Function.Registers
import Moonstack.Log

/-!
# Frames

The state of writing one function: an operand stack known at writing time, whose entries are
literals and registers.

* A register is freed when no stack entry refers to it and its lifetime has ended. A register whose
  lifetime goes on waits in `Frame.pending`, and `Frame.drainPending` looks at it again.
* `Frame.pop` and `Frame.peek` never go below the floor of the innermost open block. What they give
  then is `Operand.missing`, with a warning.
* `Frame.detachAliases` moves the stack entries of a register to a copy, so that the register can be
  assigned without changing what is on the stack.
-/

namespace Moonstack

/-! ## Entries and blocks -/

/-- An entry of the operand stack. -/
inductive Entry where
  | literal (l : Literal)
  | register (id : RegisterId)
deriving DecidableEq

/-- An open structured instruction. -/
structure Block where
  name : BlockName
  enterDepth : Nat
  result : Option ValueType
  /-- register that receives this value on every way out -/
  register : Option RegisterId
  inElse : Bool := false

namespace Block

/-- The label that a branch to the block jumps to. -/
def branchLabel (b : Block) : Label :=
  match b.name.kind with
  | .loop => .start b.name
  | .block | .cond => .fin b.name

/-- The register that a branch to the block assigns. A loop starts again without a value. -/
def branchRegister (b : Block) : Option RegisterId :=
  match b.name.kind with
  | .loop => none
  | .block | .cond => b.register

end Block

/-- A place where a function goes on after a long jump. -/
structure ResumeSite where
  offset : Nat
  /-- a loop is open there, so no `goto` from the head of the function reaches it -/
  inLoop : Bool
deriving DecidableEq

/-! ## The state -/

/-- The state of writing one function. -/
structure Frame where
  id : String
  /-- none for an initializer -/
  signature : Option Signature
  localTypes : List ValueType
  paramCount : Nat
  locals : Array (Option RegisterId)
  registers : Registers
  pending : List RegisterId := []
  /-- the operand stack, the top first -/
  stack : List Entry := []
  /-- open blocks, the innermost first -/
  blocks : List Block := []
  lifetimes : Lifetimes := {}
  clock : Nat := 0
  sites : Array ResumeSite := #[]
  debug : Debug := {}
  notes : Array String := #[]
  warnings : Nat := 0
  log : Log := #[]

namespace Frame

/-- The state before the first instruction. -/
def start (id : String) (signature : Option Signature) (declared : List ValueType)
    (strategy : Strategy) : Frame :=
  let params := (signature.map Signature.params).getD []
  { id, signature
    localTypes := params ++ declared
    paramCount := params.length
    locals := Array.replicate (params ++ declared).length none
    registers := { strategy } }

/-- The types of the results of the function. -/
def resultTypes (f : Frame) : List ValueType := (f.signature.map Signature.results).getD []

/-- Takes a counter step. -/
def tick (f : Frame) : Frame := { f with clock := f.clock + 1 }

/-- Is a loop open? -/
def inLoop (f : Frame) : Bool := f.blocks.any fun b => b.name.kind == .loop

/-! ## Comments and warnings -/

/-- Adds a debug comment. -/
def note (f : Frame) (text : String) : Frame := { f with notes := f.notes.push text }

/-- Adds a debug comment if it is wanted. -/
def noteIf (f : Frame) (wanted : Bool) (text : String) : Frame := if wanted then f.note text else f

/-- Logs a message, with the function it is about. -/
def record (f : Frame) (level : Level) (message : String) : Frame :=
  { f with log := f.log.push { level, message := s!"{f.id}: {message}" } }

/-- Logs a warning and counts it. -/
def warn (f : Frame) (message : String) : Frame :=
  { f.record .warn message with warnings := f.warnings + 1 }

/-! ## Registers -/

/-- Depth of the operand stack; one when it is empty. -/
def depth (f : Frame) : Nat := f.stack.length + 1

/-- The least depth that the innermost open block may pop to. -/
def floor (f : Frame) : Nat :=
  match f.blocks with
  | [] => 1
  | b :: _ => b.enterDepth

/-- The name of the slot of a register. -/
def nameOf (f : Frame) (id : RegisterId) : String := slotName (f.registers.slotOf id)

/-- A stack entry as an operand of the code. -/
def operand (f : Frame) : Entry → Operand
  | .literal l => .literal l
  | .register id => .slot (f.registers.slotOf id)

/-- Makes a register for a value of its own. -/
def temporary (f : Frame) : RegisterId × Frame :=
  let (id, registers) := f.registers.createTemporary
  let f := { f with registers }
  (id, f.noteIf f.debug.registers s!"alloc {f.nameOf id}")

/-- The register of a local, made at the first use. -/
def localRegister (f : Frame) (index : Nat) : RegisterId × Frame :=
  match (f.locals[index]?).join with
  | some id => (id, f)
  | none =>
    let (id, registers) := f.registers.createNamed index f.clock (f.lifetimes.lastRef index)
    let f := { f with registers, locals := f.locals.modify index fun _ => some id }
    (id, f.noteIf f.debug.registers s!"bind local {index} to {f.nameOf id}")

/-! ## Freeing -/

/-- The debug comment on a register that is freed. -/
def freeNote (f : Frame) (id : RegisterId) (r : Register) : String :=
  match r.boundTo, r.firstRef with
  | some index, some first =>
    let last := r.lastRef.elim "end" toString
    s!"free {f.nameOf id} (local {index}, live {first}..{last})"
  | _, _ => s!"free {f.nameOf id}"

/-- Does the lifetime of a register go on? -/
def outlives (f : Frame) (r : Register) : Bool :=
  r.boundTo.isSome && r.lastRef.any fun last => decide (f.clock < last)

/-- Takes a local's register away, if it is the given one. -/
def unbind (f : Frame) (index : Option Nat) (id : RegisterId) : Frame :=
  match index with
  | none => f
  | some index =>
    { f with locals := f.locals.modify index fun b => if b = some id then none else b }

/-- Frees a register that nothing on the stack refers to and whose lifetime has ended. A register
whose lifetime goes on waits. Says whether the register was freed. -/
def tryFree (f : Frame) (id : RegisterId) : Except RegisterError (Bool × Frame) :=
  match f.registers.get? id with
  | none => .ok (false, f)
  | some r =>
    if !r.live || r.stackRefs != 0 then .ok (false, f)
    else if f.outlives r then
      .ok (false, if f.pending.contains id then f else { f with pending := f.pending ++ [id] })
    else do
      let f := f.unbind r.boundTo id
      let f := f.noteIf f.debug.registers (f.freeNote id r)
      let registers ← f.registers.free id
      return (true, { f with registers })

/-- Frees those of the registers that can be freed. -/
def tryFreeAll (f : Frame) : List RegisterId → Except RegisterError Frame
  | [] => .ok f
  | id :: rest => do
    let (_, f) ← f.tryFree id
    f.tryFreeAll rest

/-- Looks again at the registers that wait. -/
def drainPending (f : Frame) : Except RegisterError Frame :=
  { f with pending := [] }.tryFreeAll f.pending

/-- Frees the register of a local, if this was the last use. -/
def afterLocalAccess (f : Frame) (index : Nat) : Except RegisterError Frame :=
  match (f.locals[index]?).join with
  | none => .ok f
  | some id => do
    let (_, f) ← f.tryFree id
    return f

/-! ## The operand stack -/

/-- Pushes a literal. -/
def pushLiteral (f : Frame) (l : Literal) : Frame :=
  let f := f.noteIf f.debug.stack s!"push {l.text}"
  { f with stack := .literal l :: f.stack }

/-- Pushes a register, which counts one more reference. -/
def pushRegister (f : Frame) (id : RegisterId) : Frame :=
  let f := f.noteIf f.debug.stack s!"push {f.nameOf id}"
  { f with
    registers := f.registers.modify id fun r => { r with stackRefs := r.stackRefs + 1 }
    stack := .register id :: f.stack }

/-- Takes back the reference of a stack entry, and frees the register if it was the last. -/
def release (f : Frame) (id : RegisterId) : Except RegisterError Frame := do
  let f := { f with
    registers := f.registers.modify id fun r => { r with stackRefs := r.stackRefs - 1 } }
  if (f.registers.get? id).any fun r => r.stackRefs == 0 then
    let (_, f) ← f.tryFree id
    return f
  else return f

/-- Takes the top entry off the stack. -/
def popEntry (f : Frame) : Except RegisterError (Operand × Frame) :=
  if f.depth ≤ f.floor then .ok (.missing, f.warn "pop below block floor")
  else
    match f.stack with
    | [] => .ok (.missing, f)
    | .literal l :: rest => .ok (.literal l, { f with stack := rest })
    | .register id :: rest => do
      let o := f.operand (.register id)
      let f ← { f with stack := rest }.release id
      return (o, f)

/-- Pops an operand. -/
def pop (f : Frame) : Except RegisterError (Operand × Frame) := do
  let (o, f) ← f.popEntry
  return (o, f.noteIf f.debug.stack s!"pop {o.text}")

/-- The operand `n` entries below the top, which stays. -/
def peek (f : Frame) (n : Nat) : Operand × Frame :=
  if f.depth ≤ f.floor + n then (.missing, f.warn "peek below block floor")
  else
    match f.stack[n]? with
    | none => (.missing, f)
    | some e => (f.operand e, f)

/-- Moves the stack entries of a register to a fresh temporary. Gives the statement that copies the
value, if there was an entry. -/
def detachAliases (f : Frame) (id : RegisterId) : Option Stmt × Frame :=
  let refs := ((f.registers.get? id).map Register.stackRefs).getD 0
  if refs = 0 then (none, f)
  else
    let (copy, registers) := f.registers.createTemporary
    let registers := registers.modify id fun r => { r with stackRefs := 0 }
    let registers := registers.modify copy fun r => { r with stackRefs := refs }
    let stack := f.stack.map fun e => if e = .register id then .register copy else e
    (some (.assign [.slot (registers.slotOf copy)] (.slot (registers.slotOf id))),
      { f with registers, stack })

/-! ## Open blocks -/

/-- Opens a structured instruction; one that leaves a value gets a register for it. -/
def openBlock (f : Frame) (name : BlockName) (result : Option ValueType) : Block × Frame :=
  let (register, f) : Option RegisterId × Frame :=
    match result with
    | none => (none, f)
    | some _ =>
      let (id, f) := f.temporary
      (some id, f)
  let b : Block := { name, enterDepth := f.depth, result, register }
  (b, { f with blocks := b :: f.blocks })

/-- Forgets the innermost open block. -/
def dropBlock (f : Frame) : Frame := { f with blocks := f.blocks.tail }

end Frame

end Moonstack
