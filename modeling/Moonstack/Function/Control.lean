import Moonstack.Function.Emission

/-!
# Control flow

Branches, branch tables and the ends of structured instructions.

* A branch assigns the register of the block it goes to, if the block takes a value, and jumps. One
  past the outermost block is the function itself, so such a branch returns.
* A branch table is a chain of tests, or a search tree if it has more targets than the options allow
  for a chain.
* Where an arm ends, its value goes to the register of the block, and what else it left on the stack
  is dropped with a warning.
-/

namespace Moonstack

/-! ## Branch tables as choices -/

/-- A test of the operand of a branch table. -/
inductive TableTest where
  | equals (n : Nat)
  | below (n : Nat)
  /-- The operand numbers none of the targets. -/
  | outside (count : Nat)

/-- A choice between branches. -/
inductive Choice where
  | go (depth : Nat)
  /-- A test. Behind an arm of an `if`, one that `joins` is a further arm of it. -/
  | test (joins : Bool) (t : TableTest) (yes no : Choice)

/-- The condition of a test, for an operand. -/
def TableTest.condition (index : Operand) : TableTest → Expr
  | equals n => .binary .eq (.operand index) (.number n)
  | below n => .binary .lt (.operand index) (.number n)
  | outside count => .binary .or (.binary .lt (.operand index) (.number 0))
      (.binary .ge (.operand index) (.number count))

namespace Choice

/-- A chain of tests, one for each target; `first` is the number of the first. -/
def chain (fallback : Nat) : Nat → List Nat → Choice
  | _, [] => go fallback
  | first, target :: rest => test true (.equals first) (go target) (chain fallback (first + 1) rest)

/-- A search tree over targets, the first of which has the given number. -/
def search (target : Nat → Nat) (first count : Nat) : Choice :=
  if count ≤ 1 then go (target first)
  else test false (.below (first + count / 2)) (search target first (count / 2))
    (search target (first + count / 2) (count - count / 2))
termination_by count
decreasing_by all_goals omega

/-- The choice of the target that the operand numbers, or of the fallback if there is none: a search
tree if there are more targets than the limit. -/
def table (limit : Option Nat) (targets : List Nat) (fallback : Nat) : Choice :=
  if limit.any fun n => decide (n < targets.length) then
    test false (.outside targets.length) (go fallback)
      (search (fun n => (targets[n]?).getD fallback) 0 targets.length)
  else chain fallback 0 targets

end Choice

namespace Emit

/-! ## Branches -/

/-- The operands `n - 1` to `0` below the top, which stay. -/
def peekMany : Nat → Emit (List Operand)
  | 0 => return []
  | n + 1 => do
    let o ← step fun f => f.peek n
    let rest ← peekMany n
    return o :: rest

/-- Returns from the function; the values stay on the stack. -/
def leaveFunction : Emit Unit := do
  let values ← peekMany (← frame).resultTypes.length
  stmt (.ret values)

/-- Returns at the end of the body, if there is anything to return. -/
def finishFunction : Emit Unit := do
  let f ← frame
  if f.resultTypes.length ≠ 0 ∧ f.depth ≠ 1 then
    let values ← popMany f.resultTypes.length
    stmt (.ret values)

/-- A branch to the block that is the given number of levels out. -/
def branch (depth : Nat) : Emit Unit := do
  let f ← frame
  match f.blocks[depth]? with
  | some target =>
    if let some id := target.branchRegister then
      let value ← step fun f => f.peek 0
      copy id value
    stmt (.goto target.branchLabel)
  | none =>
    if depth = f.blocks.length then leaveFunction
    else
      warn (.unresolvedBranch depth)
      stmt (.run (.error "unresolved branch target"))

/-- Writes code one level deeper. -/
def inset (x : Emit Unit) : Emit Unit := do
  deeper
  x
  shallower

/-- A branch that is taken if the operand is not zero. -/
def branchIf (depth : Nat) : Emit Unit := do
  let condition ← pop
  line (.ifThen (.binary .ne (.operand condition) (.number 0)))
  inset (branch depth)
  line .close

/-- Writes a choice, on its own or behind an arm of an `if`. -/
def choose (index : Operand) : Choice → (behind : Bool) → Emit Unit
  | .go depth, false => branch depth
  | .go depth, true => do
    line .otherwise
    inset (branch depth)
  | .test joins t yes no, behind =>
    let arms : Emit Unit := do
      inset (choose index yes false)
      choose index no true
    let whole : Emit Unit := do
      line (.ifThen (t.condition index))
      arms
      line .close
    if behind = false then whole
    else if joins then do
      line (.elseIf (t.condition index))
      arms
    else do
      line .otherwise
      inset whole

/-- A branch to the target that the operand numbers, or to the fallback if there is none. -/
def branchTable (env : Env) (targets : List Nat) (fallback : Nat) : Emit Unit := do
  let count := targets.length + 1
  if env.options.branchTableLimit < count then
    throw (.of (.rejected (.wideBranchTable count env.options.branchTableLimit)))
  let index ← pop
  choose index (.table env.options.bisectAbove targets fallback) false

/-! ## Ends of structured instructions -/

/-- Drops what is left over at the end of an arm. -/
def dropRest (b : Block) : Emit Unit := do
  let residual := (← frame).depth - b.enterDepth
  if 0 < residual then
    warn (.extraValues b.name residual)
    let _ ← popMany residual

/-- Ends an arm of a block: stores its value and drops what is left over. -/
def settleArm (b : Block) : Emit Unit := do
  if let some id := b.register then
    if b.enterDepth < (← frame).depth then
      let value ← pop
      copy id value
  dropRest b

/-- Opens a block inside those that are open. -/
def openBlock (name : BlockName) (result : Option ValueType) : Emit Block :=
  step fun f => f.openBlock name result

/-- Goes from the first arm of an `if` to the second. -/
def alternative (b : Block) : Emit Unit := do
  change Frame.tick
  settleArm b
  stmt (.goto (.fin b.name))
  shallower
  line (.label (.alternative b.name))
  deeper
  change fun f =>
    match f.blocks with
    | [] => f
    | inner :: outer => { f with blocks := { inner with inElse := true } :: outer }

/-- Checks the depth of the stack behind a block. -/
def checkDepth (b : Block) (expected : Nat) : Emit Unit := do
  let f ← frame
  if f.depth ≠ expected then throw (.of (.depth f.id f.depth b.name.text expected))

/-- Closes a block from its label on: it is forgotten and its value pushed. -/
def forgetBlock (b : Block) : Emit Unit := do
  line (.label (.fin b.name))
  change Frame.dropBlock
  if let some id := b.register then change fun f => f.pushRegister id
  checkDepth b (b.enterDepth + (if b.register.isSome then 1 else 0))

/-- Closes a block from the end of its last arm on. -/
def leaveBlock (b : Block) : Emit Unit := do
  if b.name.kind = .loop then line .leave
  shallower
  if b.name.kind = .loop then line .close
  forgetBlock b

/-- Closes the innermost open block and pushes its value. -/
def closeBlock : Emit Unit := do
  change Frame.tick
  match (← frame).blocks with
  | [] => throw (.of (.noOpenBlock (← frame).id))
  | b :: _ =>
    settleArm b
    if b.name.kind = .cond ∧ b.inElse = false ∧ b.register.isSome then
      warn (.valueWithoutElse b.name)
    leaveBlock b

end Emit

end Moonstack
