import Mathlib.Logic.Function.Basic
import Moonstack.Proofs.Code.Slots
import Moonstack.Proofs.Flow.Step
import Moonstack.Proofs.Validation.Typing

/-!
# Straight-line code over any operations

What a body without control instructions computes, and what its generated code does, when nothing is
known about the operations themselves.

An `Interpretation` gives every operation a meaning, by its spelling: it says what statements of a
shape, with holes for the operands and for the slots that are changed, make of the values of their
operands and of the world. Nothing is left open about moves between slots, about the zeros of the
types and about `select`.

Both the code and the body keep the list of the actions so far, each with the values of its
operands, next to the world.
-/

namespace Moonstack

namespace Expr

/-- An expression with a hole in the place of each operand. -/
def shape (e : Expr) : Expr := e.mapOperands fun _ => .missing

/-- Expressions with holes in the place of their operands. -/
def allShapes (es : List Expr) : List Expr := mapAll (fun _ => .missing) es

end Expr

namespace Stmt

/-- The operands that a statement reads. -/
def operands : Stmt → List Operand
  | assign targets value =>
    Expr.allOperands (targets.filter fun place => place.target.isNone) ++ value.operands
  | run e => e.operands
  | capture place _ _ => place.operands
  | goto _ => []
  | ret values => values

/-- The slots that a statement changes. A method that is called on a slot changes what is there. -/
def changes : Stmt → List Nat
  | run (.method (.operand (.slot d)) _ _) => [d]
  | s => s.assigns

/-- Is it a statement that control passes? -/
def acts : Stmt → Bool
  | assign _ _ | run _ => true
  | capture _ _ _ | goto _ | ret _ => false

/-- A statement with holes in the place of operands and of slots. -/
def shape : Stmt → Stmt
  | assign targets value => assign (Expr.allShapes targets) value.shape
  | run e => run e.shape
  | s => s

end Stmt

/-- A meaning of the operations, with values in `V`, on a world in `W`. -/
structure Interpretation (V W : Type) where
  const : Const → V
  zero : V
  longZero : V
  /-- what a slot holds that has just been declared -/
  nil : V
  nonzero : V → Bool
  /-- what statements of a shape make of their operands: the values of the slots that they change,
  and the world behind them -/
  act : Stmt → List V → W → List V × W

/-- What has been done to the world. -/
structure Effects (V W : Type) where
  world : W
  /-- the actions so far, each with the values of its operands -/
  trace : List (Stmt × List V)

/-- What the generated code works on. -/
structure Running (V W : Type) where
  slots : Nat → V
  effects : Effects V W

/-- Slots with new values; a value that is missing is taken to be `nil`. -/
def assignAll {V : Type} (nil : V) : List Nat → List V → (Nat → V) → Nat → V
  | [], _, σ => σ
  | d :: rest, vs, σ => assignAll nil rest vs.tail (Function.update σ d (vs.headD nil))

namespace Interpretation

variable {V W : Type} (I : Interpretation V W)

def zeroOf : ValueType → V
  | .i64 => I.longZero
  | .i32 | .f32 | .f64 => I.zero

/-- The value that a slot is given by a statement that is a move or gives a zero. -/
def given : Stmt → List V → Option V
  | .assign [.operand _] (.operand _), [v] => some v
  | .assign [.operand _] (.number 0), [] => some I.zero
  | .assign [.operand _] (.call (.name function) [.number 0, .number 0]), [] =>
    if function = Helper.longInt.name then some I.longZero else none
  | _, _ => none

/-- What a statement of a shape makes of its operands. -/
def apply (shape : Stmt) (vs : List V) (x : Effects V W) : List V × Effects V W :=
  match I.given shape vs with
  | some v => ([v], x)
  | none =>
    let (results, world) := I.act shape vs x.world
    (results, ⟨world, x.trace ++ [(shape, vs)]⟩)

def operand (σ : Nat → V) : Operand → Option V
  | .slot n => some (σ n)
  | .literal (.const c) => some (I.const c)
  | .literal .nil | .literal (.raw _) | .missing => none

/-- Executes a statement: it reads its operands, acts, and changes slots. -/
def exec (s : Stmt) (r : Running V W) : Option (Running V W) :=
  if s.acts then
    (s.operands.mapM (I.operand r.slots)).map fun vs =>
      let (results, effects) := I.apply s.shape vs r.effects
      ⟨assignAll I.nil s.changes results r.slots, effects⟩
  else none

/-- Executes a line of straight-line code. -/
def line : Line → Running V W → Option (Running V W)
  | .stmt s, r => I.exec s r
  | .choice (.binary .ne (.operand c) (.number 0)) s t, r => do
    let v ← I.operand r.slots c
    if I.nonzero v then I.exec s r else I.exec t r
  | .declare slots, r => some { r with slots := fun n => if n ∈ slots then I.nil else r.slots n }
  | .comment _, r => some r
  | _, _ => none

/-- Executes lines in order. -/
def lines : List Line → Running V W → Option (Running V W)
  | [], r => some r
  | l :: rest, r => (I.line l r).bind (lines rest)

/-- Executes lines in order up to a return, and gives the values that are returned. -/
def run : List Line → Running V W → Option (List V × Effects V W)
  | [], r => some ([], r.effects)
  | .stmt (.ret operands) :: _, r => (operands.mapM (I.operand r.slots)).map (·, r.effects)
  | l :: rest, r => (I.line l r).bind (run rest)

/-- Code is entered: the first slots hold the arguments. -/
def enter (args : List V) (w : W) : Running V W := ⟨fun n => (args[n]?).getD I.nil, ⟨w, []⟩⟩

end Interpretation

/-- The spelling of an instruction. The first slots are its operands, in the order they were pushed,
and the slots behind them are its results. -/
structure Template where
  params : Nat
  results : Nat
  code : List Stmt

namespace Template

/-- An expression in the operands. -/
def value (params : Nat) (e : Expr) : Template := ⟨params, 1, [.assign [.slot params] e]⟩

/-- A call. Its last operands, as many as `taken`, are not arguments but belong to the callee. -/
def invoke (signature : Signature) (taken : Nat) (callee : Expr) : Template where
  params := signature.params.length + taken
  results := signature.results.length
  code :=
    let call := Expr.call callee ((List.range signature.params.length).map .slot)
    if signature.results.isEmpty then [.run call]
    else [.assign ((List.range' (signature.params.length + taken) signature.results.length).map
      .slot) call]

/-- Runs the spelling of an instruction on the values of its operands. -/
def run {V W : Type} (I : Interpretation V W) (t : Template) (args : List V) (x : Effects V W) :
    Option (List V × Effects V W) := do
  let r ← I.lines (t.code.map .stmt) ⟨fun n => (args[n]?).getD I.nil, x⟩
  some ((List.range' t.params t.results).map r.slots, r.effects)

end Template

/-- The spelling of an instruction that is an operation. -/
def Op.template (env : Env) : Op → Option Template
  | call index => do
    let callee ← env.registry.function? index
    some (.invoke (callee.signature.getD {}) 0 (.name callee.id))
  | callIndirect type table => do
    let signature ← env.registry.types[type]?
    let handle ← env.registry.table? table
    some (.invoke signature 1 (.index (.name handle.functions)
      (.binary .add (.name handle.offset) (.slot signature.params.length))))
  | globalGet index => (env.registry.global? index).map fun slot => .value 0 (globalPlace slot)
  | globalSet index => (env.registry.global? index).map fun slot =>
    ⟨1, 0, [.assign [globalPlace slot] (.slot 0)]⟩
  | load type width signed arg => do
    let handle ← env.registry.memory? arg.memory
    let code ← lowerLoad (.slot 1) type width signed (.name handle) (addressOf (.slot 0) arg.offset)
    some ⟨1, 1, code⟩
  | store type width arg => do
    let handle ← env.registry.memory? arg.memory
    let s ← lowerStore type width (.name handle) (addressOf (.slot 0) arg.offset) (.slot 1)
    some ⟨2, 0, [s]⟩
  | memorySize index =>
    (env.registry.memory? index).map fun handle => .value 0 (Moonstack.memorySize (.name handle))
  | memoryGrow index =>
    (env.registry.memory? index).map fun handle =>
      .value 1 (Moonstack.memoryGrow (.name handle) (.slot 0))
  | eqz type => (lowerEqz type (.slot 0)).map (.value 1)
  | compare type op => (op.lower type (.slot 0) (.slot 1)).map (.value 2)
  | unary type op => (op.lower type (.slot 0)).map (.value 1)
  | binary type op => (op.lower env.options.correctMultiply type (.slot 0) (.slot 1)).map (.value 2)
  | convert op => (op.lower (.slot 0)).map (.value 1)
  | _ => none

/-- The stack machine: values with the top first, the locals, and the world. -/
structure Machine (V W : Type) where
  stack : List V
  locals : Nat → V
  effects : Effects V W

namespace Machine

variable {V W : Type} (I : Interpretation V W)

/-- Takes the operands of an operation off the stack, and pushes its results. -/
def perform (m : Machine V W) (t : Template) : Option (Machine V W) :=
  if t.params ≤ m.stack.length then
    (t.run I (m.stack.take t.params).reverse m.effects).map fun (results, effects) =>
      { m with stack := results.reverse ++ m.stack.drop t.params, effects }
  else none

theorem perform_append {t : Template} {args : List V} (h : args.length = t.params) (below : List V)
    (ls : Nat → V) (x : Effects V W) : perform I ⟨args.reverse ++ below, ls, x⟩ t =
      (t.run I args x).map fun (results, effects) => ⟨results.reverse ++ below, ls, effects⟩ := by
  have hparams : args.reverse.length = t.params := by rw [List.length_reverse, h]
  rw [perform, if_pos (by rw [List.length_append, hparams]; exact Nat.le_add_right _ _), ← hparams,
    List.take_left, List.drop_left, List.reverse_reverse]

end Machine

section

variable {V W : Type} (I : Interpretation V W) (env : Env)

/-- Performs an instruction. A conversion that has no spelling of its own changes nothing. -/
def Op.step (m : Machine V W) : Op → Option (Machine V W)
  | nop => some m
  | drop =>
    match m.stack with
    | _ :: rest => some { m with stack := rest }
    | _ => none
  | select =>
    match m.stack with
    | c :: y :: x :: rest => some { m with stack := (if I.nonzero c then x else y) :: rest }
    | _ => none
  | const value => some { m with stack := I.const value :: m.stack }
  | localGet l => some { m with stack := m.locals l :: m.stack }
  | localSet l =>
    match m.stack with
    | v :: rest => some { m with stack := rest, locals := Function.update m.locals l v }
    | _ => none
  | localTee l =>
    match m.stack with
    | v :: _ => some { m with locals := Function.update m.locals l v }
    | _ => none
  | convert op =>
    match (convert op).template env with
    | some t => m.perform I t
    | none => some m
  | o => (o.template env).bind (m.perform I)

/-- Performs the instructions of a body that has no structured ones. -/
def Instr.steps : List Instr → Machine V W → Option (Machine V W)
  | [], m => some m
  | .leaf _ o :: rest, m => (o.step I env m).bind (steps rest)
  | _ :: _, _ => none

/-- The locals at the start of a function: the arguments, and the zeros of the types of the others.
-/
def Function.initially (signature : Signature) (function : Function) (args : List V) (l : Nat) : V :=
  (args[l]?).getD (I.zeroOf (((signature.params ++ function.locals)[l]?).getD .i32))

/-- Performs a function without structured instructions. Its results are what is on the stack at the
end, in the order it was pushed. -/
def Function.performs (signature : Signature) (function : Function) (args : List V) (w : W) :
    Option (List V × Effects V W) := do
  let m ← Instr.steps I env function.body ⟨[], function.initially I signature args, ⟨w, []⟩⟩
  if m.stack.length = signature.results.length then some (m.stack.reverse, m.effects) else none

end

/-- Does the instruction always go on behind itself? -/
def Op.isStraight (registry : Registry) : Op → Bool
  | br _ | brIf _ | brTable _ _ | ret | unreachable | unsupported _ => false
  | o => !o.jumps registry

/-- Is it an instruction without a body that goes on behind itself? -/
def Instr.isStraight (registry : Registry) : Instr → Bool
  | leaf _ o => o.isStraight registry
  | _ => false

end Moonstack
