import Moonstack.Function.Emission
import Moonstack.Instr.Mnemonic
import Moonstack.Lowering.Storage

/-!
# Instructions as tasks

Most instructions take operands off the stack, run some straight-line code, and push results that
stand in new temporaries. `Op.plain` says so of an instruction: how many operands it takes, how many
results it leaves, and what its code is. It has no answer for branches, for accesses to locals and
constants, and for what cannot be written: an operation that does not exist at its type, an index
that points nowhere, and the calls of the long-jump protocol.

What cannot be written has a fixed form too, with warnings in it and literals for its results. A
`Task` covers both, and `Emit.perform` writes it. A register for a result is always made before the
operands are popped, so a result never lands in the local of an operand that the same statement
reads.

A function that calls `setjmp` is written as two. Its body takes two more parameters, the record of
a long jump that it resumes from and a token for the running call; the function itself runs this
body under `pcall`.

* `setjmp(buf)` stores a record of every register slot, of the place to go on at and of the token,
  and yields zero, or the value of the long jump when the body was entered to resume there.
* `longjmp(buf, val)` puts the value into the record and raises it as an error. The function whose
  token it holds catches it and enters its body again.
-/

namespace Moonstack

/-! ## Shapes of instructions -/

/-- The line that stops with a message. -/
def haltLine (message : String) : Line := .stmt (.run (.error message))

/-- An instruction that takes operands and leaves results. Its code is given the operands, in the
order they were pushed, and the slots of the results. -/
structure Plain where
  pops : Nat
  pushes : Nat
  code : List Operand → List Nat → List Line

namespace Plain

/-- An instruction that does nothing with its operands. -/
def discard (pops : Nat) : Plain := ⟨pops, 0, fun _ _ => []⟩

/-- An operation on one operand, if it can be spelled. -/
def unary (lower : Expr → Option Expr) : Option Plain :=
  (lower (.number 0)).map fun _ => ⟨1, 1, fun
    | [x], [d] => (lower (.operand x)).toList.map fun e => .stmt (.assign [.slot d] e)
    | _, _ => []⟩

/-- An operation on two operands, if it can be spelled. -/
def binary (lower : Expr → Expr → Option Expr) : Option Plain :=
  (lower (.number 0) (.number 0)).map fun _ => ⟨2, 1, fun
    | [x, y], [d] =>
      (lower (.operand x) (.operand y)).toList.map fun e => .stmt (.assign [.slot d] e)
    | _, _ => []⟩

/-- An expression without operands. -/
def value (e : Expr) : Plain := ⟨0, 1, fun
  | _, [d] => [.stmt (.assign [.slot d] e)]
  | _, _ => []⟩

/-- The choice of one of two operands by a third. -/
def select : Plain := ⟨3, 1, fun
  | [x, y, c], [d] => [.choice (.binary .ne (.operand c) (.number 0))
      (.assign [.slot d] (.operand x)) (.assign [.slot d] (.operand y))]
  | _, _ => []⟩

/-- A load, if it can be spelled. -/
def load (type : ValueType) (width : Width) (signed : Bool) (handle : String) (offset : Nat) :
    Option Plain :=
  (lowerLoad (.slot 0) type width signed (.name handle) (.number 0)).map fun _ => ⟨1, 1, fun
    | [x], [d] => ((lowerLoad (.slot d) type width signed (.name handle)
        (addressOf (.operand x) offset)).getD []).map .stmt
    | _, _ => []⟩

/-- A store, if it can be spelled. -/
def store (type : ValueType) (width : Width) (handle : String) (offset : Nat) : Option Plain :=
  (lowerStore type width (.name handle) (.number 0) (.number 0)).map fun _ => ⟨2, 0, fun
    | [x, y], _ => (lowerStore type width (.name handle) (addressOf (.operand x) offset)
        (.operand y)).toList.map .stmt
    | _, _ => []⟩

/-- A conversion. It does nothing if the operand can be used as it is. -/
def conversion (op : Conversion) : Plain := (unary op.lower).getD (discard 0)

/-- A call whose callee takes the given number of operands itself, the last ones. -/
def invoke (signature : Signature) (taken : Nat) (callee : List Operand → Expr) : Plain :=
  ⟨signature.params.length + taken, signature.results.length, fun args slots =>
    let call := Expr.call (callee (args.drop signature.params.length))
      ((args.take signature.params.length).map .operand)
    if slots.isEmpty then [.stmt (.run call)] else [.stmt (.assign (slots.map .slot) call)]⟩

/-- An instruction that stops, whatever its operands are. -/
def halts (pops pushes : Nat) (messages : List String) : Plain :=
  ⟨pops, pushes, fun _ _ => messages.map haltLine⟩

/-- An instruction that stops in the place of its result. -/
def stopped (pops : Nat) (message : String) : Plain :=
  ⟨pops, 1, fun _ ds => [.stmt (.assign (ds.map .slot) (.error message))]⟩

end Plain

/-! ## Long jumps -/

/-- Does calling a function of this name save the place for a long jump? -/
def Emit.isSetjmp (name : String) : Bool := name == "setjmp" || name == "_setjmp"

/-- Is calling a function of this name a long jump? -/
def Emit.isLongjmp (name : String) : Bool := name == "longjmp" || name == "_longjmp"

/-- The place of the record for a buffer in a memory. -/
def jumpPlace (handle : String) (buffer : Operand) : Expr :=
  .index (.index (.helper .setjmpStates) (.name handle)) (.operand buffer)

/-- The code of a long jump: its operands are a buffer and a value. -/
def jumpCode (handle : String) (xs : List Operand) : List Line :=
  let state := jumpPlace handle ((xs[0]?).getD .missing)
  let value := (xs[1]?).getD .missing
  let isZero := Expr.paren (.binary .eq (.operand value) (.number 0))
  [.stmt (.assign [.field state "result"]
      (.binary .or (.binary .and isZero (.number 1)) (.operand value))),
    .stmt (.run (.call (.name "error") [state]))]

/-- What a long jump without a memory stops with. -/
def jumpMessage : String := "setjmp requires a linear memory"

/-- A long jump. It takes a buffer and a value, whatever its signature says. -/
def Plain.longjmp (env : Env) (signature : Signature) : Plain :=
  let pops := max signature.params.length 2
  match env.registry.memory? 0 with
  | none => .halts pops 0 [jumpMessage]
  | some handle => ⟨pops, 0, fun xs _ => jumpCode handle xs⟩

/-- The value a call of `setjmp` yields: that of the long jump to this place, or zero. -/
def Emit.resumedValue (site : Label) : Expr :=
  let record := Expr.name jumpRecord
  let resumed := Expr.binary .and (.binary .ne record (.operand (.literal .nil)))
    (.binary .eq (.field record "target") (.string site.text))
  .binary .or (.binary .and (.paren resumed) (.field record "result")) (.number 0)

/-! ## Tasks -/

/-- A plain instruction that may warn, before and after its operands are taken, and push literals
behind its results. -/
structure Task extends Plain where
  notices : List Warning := []
  warnings : List Warning := []
  literals : List Literal := []

/-- A plain instruction as a task. -/
def Plain.task (p : Plain) : Task := { toPlain := p }

/-- An operation that cannot be written. -/
def Task.missing (pops : Nat) (warnings : List Warning) (name : String) : Task :=
  { (Plain.stopped pops s!"NOT IMPLEMENTED: {name}").task with
    warnings := warnings ++ [.unsupported name] }

/-- The warning that a memory is missing. -/
def Env.lacks (env : Env) (index : Nat) : List Warning :=
  if (env.registry.memory? index).isSome then [] else [.missingMemory index]

/-- The warning that there is no memory for a long jump. -/
def Env.jumpless (env : Env) : List Warning :=
  if (env.registry.memory? 0).isSome then [] else [.jumpWithoutMemory]

namespace Op

/-- The instruction as a plain one, if it can be written as such. -/
def plain (env : Env) : Op → Option Plain
  | nop => some (.discard 0)
  | drop => some (.discard 1)
  | select => some .select
  | call index => do
    let callee ← env.registry.function? index
    if Emit.isSetjmp callee.name || Emit.isLongjmp callee.name then none
    else some (.invoke (callee.signature.getD {}) 0 fun _ => .name callee.id)
  | callIndirect type table => do
    let signature ← env.registry.types[type]?
    let handle ← env.registry.table? table
    some (.invoke signature 1 fun taken => .index (.name handle.functions)
      (.binary .add (.name handle.offset) (.operand ((taken[0]?).getD .missing))))
  | globalGet index => (env.registry.global? index).map fun slot => .value (globalPlace slot)
  | globalSet index => (env.registry.global? index).map fun slot => ⟨1, 0, fun
    | [x], _ => [.stmt (.assign [globalPlace slot] (.operand x))]
    | _, _ => []⟩
  | load type width signed arg =>
    (env.registry.memory? arg.memory).bind fun handle => Plain.load type width signed handle arg.offset
  | store type width arg =>
    (env.registry.memory? arg.memory).bind fun handle => Plain.store type width handle arg.offset
  | memorySize index =>
    (env.registry.memory? index).map fun handle => .value (Moonstack.memorySize (.name handle))
  | memoryGrow index =>
    (env.registry.memory? index).bind fun handle =>
      Plain.unary fun x => some (Moonstack.memoryGrow (.name handle) x)
  | eqz type => Plain.unary (lowerEqz type)
  | compare type op => Plain.binary (op.lower type)
  | unary type op => Plain.unary (op.lower type)
  | binary type op => Plain.binary (op.lower env.options.correctMultiply type)
  | convert op => some (.conversion op)
  | _ => none

/-- What is written in the place of an instruction that is not plain, or that is a constant. -/
def odd (env : Env) (o : Op) : Option Task :=
  match o with
  | unreachable => some (Plain.halts 0 0 [Trap.unreachable.message]).task
  | call index =>
    match env.registry.function? index with
    | none => some { (Plain.halts 0 0 [s!"UNRESOLVED CALL: {index}"]).task with
        notices := [.unknownFunction index] }
    | some callee =>
      let signature := callee.signature.getD {}
      if Emit.isSetjmp callee.name then
        if (env.registry.memory? 0).isSome then none
        else some { (Plain.halts 1 1 [jumpMessage]).task with warnings := env.jumpless }
      else some { (Plain.longjmp env signature).task with
        warnings := env.jumpless
        literals := signature.results.map fun _ => .nil }
  | callIndirect type table =>
    match env.registry.types[type]? with
    | none => some { (Plain.halts 1 0 [s!"UNRESOLVED CALL: type {type}"]).task with
        notices := [.unknownType type] }
    | some signature =>
      some { (Plain.invoke signature 1 fun _ => .error s!"missing table {table}").task with
        notices := [.missingTable table] }
  | globalGet index => some { (Plain.discard 0).task with
      notices := [.readOfUnknownGlobal index]
      literals := [.nil] }
  | globalSet index => some { (Plain.discard 1).task with
      warnings := [.writeToUnknownGlobal index] }
  | load _ _ _ arg => some (.missing 1 (env.lacks arg.memory) o.mnemonic)
  | store _ _ arg => some { (Plain.halts 2 0 [s!"NOT IMPLEMENTED: {o.mnemonic}"]).task with
      warnings := env.lacks arg.memory ++ [.unsupported o.mnemonic] }
  | memorySize index => some (.missing 0 (env.lacks index) o.mnemonic)
  | memoryGrow index => some (.missing 1 (env.lacks index) o.mnemonic)
  | const value => some { (Plain.discard 0).task with literals := [.const value] }
  | eqz _ | unary _ _ => some (.missing 1 [] o.mnemonic)
  | compare _ _ | binary _ _ => some (.missing 2 [] o.mnemonic)
  | unsupported name => some { (Plain.halts 0 0 [s!"NOT IMPLEMENTED: {name}"]).task with
      notices := [.unsupported name] }
  | _ => none

/-- What an instruction does that looks at nothing but its operands. A conversion looks at the stack
first. -/
def task (env : Env) : Op → Option Task
  | convert _ => none
  | o => (o.plain env).elim (o.odd env) fun p => some p.task

end Op

/-! ## Writing -/

namespace Emit

/-- Makes a number of temporaries. -/
def temporaries : Nat → Emit (List RegisterId)
  | 0 => return []
  | n + 1 => do
    let id ← temporary
    let rest ← temporaries n
    return id :: rest

/-- Writes a task. -/
def perform (t : Task) : Emit Unit := do
  t.notices.forM warn
  let results ← temporaries t.pushes
  let operands ← popMany t.pops
  t.warnings.forM warn
  let slots := results.map (← frame).registers.slotOf
  (t.code operands slots).forM line
  change fun f => t.literals.foldl Frame.pushLiteral (results.foldl Frame.pushRegister f)

/-- Converts the top operand, after a look at it. -/
def convert (op : Conversion) : Emit Unit := do
  let _ ← step fun f => f.peek 0
  perform (Plain.conversion op).task

/-- A call of `setjmp` at the given byte offset, with its record in the given memory. -/
def savePlace (handle : String) (offset : Nat) : Emit Unit := do
  let result ← temporary
  let buffer ← pop
  stmt (.capture (jumpPlace handle buffer) (← frame).registers.slotCount (.resume offset))
  line (.label (.resume offset))
  assign result (resumedValue (.resume offset))
  change fun f => f.pushRegister result
  let inLoop := (← frame).inLoop
  if inLoop then warn (.resumeInLoop offset)
  change fun f => { f with sites := f.sites.push { offset, inLoop } }

end Emit

end Moonstack
