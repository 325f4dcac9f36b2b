import Mathlib.Logic.Function.Basic
import Moonstack.Module

/-!
# Evaluation of bodies

What a body computes that works with 32-bit integers only: constants, locals, `drop`, `select`,
arithmetic without products and quotients, comparisons, and all of structured control.

There is no outcome if the code is ill typed, uses an instruction that is not covered here, or goes
round a loop more often than it may: the number `fuel` bounds how often a loop is run through each
time that it is entered.
-/

namespace Moonstack

/-- A value. Only 32-bit integers are computed with; of the other types there is nothing but the zero
that a local starts with. -/
inductive Value where
  | word (n : Int32)
  | long
  | float
deriving DecidableEq

namespace Value

def zero : ValueType → Value
  | .i32 => word 0
  | .i64 => long
  | .f32 | .f64 => float

def ofBool (b : Bool) : Value := word (if b then 1 else 0)

end Value

/-- An operation on 32-bit integers that is covered. -/
def BinaryOp.onWords : BinaryOp → Option (Int32 → Int32 → Int32)
  | add => some (· + ·)
  | sub => some (· - ·)
  | and => some (· &&& ·)
  | or => some (· ||| ·)
  | xor => some (· ^^^ ·)
  | _ => none

/-- A comparison of 32-bit integers. -/
def Comparison.onWords : Comparison → Option (Int32 → Int32 → Bool)
  | eq => some fun x y => decide (x = y)
  | ne => some fun x y => decide (x ≠ y)
  | ltS => some fun x y => decide (x < y)
  | gtS => some fun x y => decide (y < x)
  | leS => some fun x y => decide (x ≤ y)
  | geS => some fun x y => decide (y ≤ x)
  | ltU => some fun x y => decide (x.toUInt32 < y.toUInt32)
  | gtU => some fun x y => decide (y.toUInt32 < x.toUInt32)
  | leU => some fun x y => decide (x.toUInt32 ≤ y.toUInt32)
  | geU => some fun x y => decide (y.toUInt32 ≤ x.toUInt32)
  | lt | gt | le | ge => none

namespace Op

/-- How many operands an instruction takes that makes results of them. -/
def operandCount : Op → Nat
  | drop | eqz _ => 1
  | compare _ _ | binary _ _ => 2
  | select => 3
  | _ => 0

/-- The results of an instruction, from its operands in the order they were pushed. -/
def results : Op → List Value → Option (List Value)
  | nop, [] => some []
  | drop, [_] => some []
  | select, [x, y, .word c] => some [if c = 0 then y else x]
  | eqz .i32, [.word x] => some [.ofBool (decide (x = 0))]
  | compare .i32 op, [.word x, .word y] => op.onWords.map fun f => [.ofBool (f x y)]
  | binary .i32 op, [.word x, .word y] => op.onWords.map fun f => [.word (f x y)]
  | _, _ => none

end Op

/-- How control leaves code: behind it, by a branch, or by a return. The values are those that the
innermost block has pushed, the top first. -/
inductive Outcome where
  | next (vals : List Value) (ls : Nat → Value)
  | branch (depth : Nat) (vals : List Value) (ls : Nat → Value)
  | ret (vals : List Value)

/-- How control leaves a block that yields `arity` values on top of `vals`, from how it leaves the
body of the block. -/
def Outcome.leave (arity : Nat) (vals : List Value) : Outcome → Option Outcome
  | next vs ls => if vs.length = arity then some (.next (vs ++ vals) ls) else none
  | branch 0 vs ls => if arity ≤ vs.length then some (.next (vs.take arity ++ vals) ls) else none
  | branch (depth + 1) vs ls => some (.branch depth vs ls)
  | ret vs => some (.ret vs)

/-- Runs the body of a loop until control leaves it, at most `fuel` times. -/
def iterate (body : (Nat → Value) → Option Outcome) (arity : Nat) (vals : List Value) :
    Nat → (Nat → Value) → Option Outcome
  | 0, _ => none
  | fuel + 1, ls =>
    match body ls with
    | some (.branch 0 _ ls) => iterate body arity vals fuel ls
    | some outcome => outcome.leave arity vals
    | none => none

/-- Takes the operands of an instruction off the stack and pushes its results. -/
def Op.perform (vals : List Value) (ls : Nat → Value) (o : Op) : Option Outcome :=
  (o.results (vals.take o.operandCount).reverse).map fun results =>
    .next (results.reverse ++ vals.drop o.operandCount) ls

/-- Evaluates an instruction without a body. -/
def Op.eval (vals : List Value) (ls : Nat → Value) : Op → Option Outcome
  | br depth => some (.branch depth vals ls)
  | brIf depth =>
    match vals with
    | .word c :: vals => some (if c = 0 then .next vals ls else .branch depth vals ls)
    | _ => none
  | brTable targets fallback =>
    match vals with
    | .word c :: vals =>
      some (.branch ((targets[c.toUInt32.toNat]?).getD fallback) vals ls)
    | _ => none
  | ret => some (.ret vals)
  | localGet l => some (.next (ls l :: vals) ls)
  | localSet l =>
    match vals with
    | v :: vals => some (.next vals (Function.update ls l v))
    | [] => none
  | localTee l =>
    match vals with
    | v :: vals => some (.next (v :: vals) (Function.update ls l v))
    | [] => none
  | const (.i32 n) => some (.next (.word n :: vals) ls)
  | o => o.perform vals ls

namespace Instr

mutual

/-- Evaluates an instruction. An `if` that yields a value has both arms. -/
def eval (fuel : Nat) : Instr → List Value → (Nat → Value) → Option Outcome
  | leaf _ o, vals, ls => o.eval vals ls
  | block _ result body, vals, ls =>
    (evalBody fuel body [] ls).bind (·.leave result.toList.length vals)
  | loop _ result body, vals, ls =>
    iterate (fun ls => evalBody fuel body [] ls) result.toList.length vals fuel ls
  | ifThen _ none body, .word c :: vals, ls =>
    if c = 0 then some (.next vals ls) else (evalBody fuel body [] ls).bind (·.leave 0 vals)
  | ifElse _ result body other, .word c :: vals, ls =>
    if c = 0 then (evalBody fuel other [] ls).bind (·.leave result.toList.length vals)
    else (evalBody fuel body [] ls).bind (·.leave result.toList.length vals)
  | ifThen _ _ _, _, _ | ifElse _ _ _ _, _, _ => none

/-- Evaluates the instructions of a body, one after the other. -/
def evalBody (fuel : Nat) : List Instr → List Value → (Nat → Value) → Option Outcome
  | [], vals, ls => some (.next vals ls)
  | i :: rest, vals, ls =>
    match eval fuel i vals ls with
    | some (.next vals ls) => evalBody fuel rest vals ls
    | outcome => outcome

end

end Instr

/-- The locals of a function at its start: the arguments, and then zeros. -/
def Function.initial (signature : Signature) (function : Function) (args : List Int32) (l : Nat) :
    Value :=
  match args[l]? with
  | some n => .word n
  | none => .zero (((signature.params ++ function.locals)[l]?).getD .i32)

/-- The values that a function of `count` results returns when control leaves its body. -/
def Outcome.returned (count : Nat) : Outcome → Option (List Value)
  | next vals _ | branch 0 vals _ | ret vals =>
    if count ≤ vals.length then some (vals.take count).reverse else none
  | branch (_ + 1) _ _ => none

/-- The results of a function for some arguments. -/
def Function.call (fuel : Nat) (signature : Signature) (function : Function) (args : List Int32) :
    Option (List Value) :=
  (Instr.evalBody fuel function.body [] (function.initial signature args)).bind
    (·.returned signature.results.length)

end Moonstack
