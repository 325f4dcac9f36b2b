import Moonstack.Binary.Operator

/-!
# Nesting

Operators as a tree. `block`, `loop` and `if` open a block, `end` closes the innermost, and the
`end` that finds none open ends the body; what follows it is not looked at. A body may also stop
without that `end`.

A further `else` of the same `if` takes the place of the first: what stood between the two becomes
the first arm.
-/

namespace Moonstack

/-! ## Open blocks -/

/-- A structured instruction whose body is being read. -/
structure OpenBlock where
  kind : BlockKind
  offset : Nat
  result : Option ValueType
  /-- the first arm of an `if`, once its `else` has been read -/
  firstArm : Option (List Instr) := none
  /-- the instructions in front of it in the enclosing body, the last first -/
  before : List Instr

/-- The instruction of a block that has ended, given what was read since it was opened or its
`else`. -/
def OpenBlock.close (b : OpenBlock) (body : List Instr) : Instr :=
  match b.kind, b.firstArm with
  | .block, _ => .block b.offset b.result body
  | .loop, _ => .loop b.offset b.result body
  | .cond, none => .ifThen b.offset b.result body
  | .cond, some first => .ifElse b.offset b.result first body

/-- What is known while operators are read: the open blocks, the innermost first, and the current
body, the last instruction first. -/
structure Nesting where
  opened : List OpenBlock := []
  body : List Instr := []

/-! ## Reading operators -/

namespace Nesting

/-- Opens a block. -/
def enter (n : Nesting) (kind : BlockKind) (offset : Nat) (type : BlockType) :
    Except Failure Nesting := do
  let result ← type.lowered
  return { opened := { kind, offset, result, before := n.body } :: n.opened }

/-- Goes over to the alternative of the innermost block, which has to be an `if`. -/
def alternative (n : Nesting) (offset : Nat) : Except Failure Nesting :=
  match n.opened with
  | [] => .error (.of (.strayElse offset))
  | b :: outer =>
    if b.kind = .cond then .ok { opened := { b with firstArm := some n.body.reverse } :: outer }
    else .error (.of (.strayElse offset))

/-- Reads operators up to the `end` of the body. -/
def read (n : Nesting) (broken : Bool) : List PlacedOperator → Except Failure (List Instr)
  | [] =>
    if broken then .error ((Failure.of .malformed).within .operator)
    else if n.opened.isEmpty then .ok n.body.reverse
    else .error (.of (.unterminated n.opened.length))
  | (offset, o) :: rest =>
    match o with
    | .block type => do read (← n.enter .block offset type) broken rest
    | .loop type => do read (← n.enter .loop offset type) broken rest
    | .cond type => do read (← n.enter .cond offset type) broken rest
    | .otherwise => do read (← n.alternative offset) broken rest
    | .finish =>
      match n.opened with
      | [] => .ok n.body.reverse
      | b :: outer =>
        read { opened := outer, body := b.close n.body.reverse :: b.before } broken rest
    | .leaf op => read { n with body := .leaf offset op :: n.body } broken rest

end Nesting

/-- The instructions of a body. -/
def Stream.instructions (s : Stream) : Except Failure (List Instr) :=
  Nesting.read {} s.broken s.operators

/-- The instructions of an initializer. -/
def constantInstructions (operators : List PlacedOperator) : Except Failure (List Instr) :=
  within .constantExpression (Stream.instructions ⟨operators, false⟩)

end Moonstack
