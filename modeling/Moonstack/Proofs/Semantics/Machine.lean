import Mathlib.Algebra.Group.Int.Defs
import Mathlib.Algebra.Group.Nat.Defs
import Moonstack.Proofs.Semantics.Evaluation
import Moonstack.Proofs.Simulation.Domain

/-!
# Runs of generated code, as Lua

What Lua does with the generated code of a body that works with 32-bit integers. The code is taken
as its lines; `Flow.next` says where control goes.

Numbers are doubles; only those are followed that are integers and small enough for a double to hold
them exactly, and an operation that leaves these has no answer here. All runs of this domain end in
a run of the machine (`Flow.terminates_of_runs`).
-/

namespace Moonstack

/-- What a slot can hold. -/
inductive LuaValue where
  | nil
  | bool (b : Bool)
  | number (n : Int)
  | long (low high : Int)
deriving DecidableEq

/-- A value of the source as the generated code keeps it. -/
def Value.lua : Value → LuaValue
  | word n => .number n.toInt
  | long => .long 0 0
  | float => .number 0

namespace LuaValue

def holds : LuaValue → Bool
  | nil | bool false => false
  | bool true | number _ | long _ _ => true

/-- A number that a double holds exactly. -/
def exact (n : Int) : Option LuaValue := if n.natAbs ≤ 2 ^ 53 then some (number n) else none

/-- A number brought to 32 bits, with its sign. -/
def wrapped (n : Int) : Int := (Int32.ofInt n).toInt

/-- The value of two numbers joined by an operator. -/
def combined (a b : Int) : InfixOp → Option LuaValue
  | .add => exact (a + b)
  | .sub => exact (a - b)
  | .eq => some (bool (a = b))
  | .ne => some (bool (a ≠ b))
  | .lt => some (bool (a < b))
  | .gt => some (bool (b < a))
  | .le => some (bool (a ≤ b))
  | .ge => some (bool (b ≤ a))
  | .mul | .div | .and | .or => none

/-- A function of the `bit` library on two numbers. -/
def bitwise (key : String) : Option (Int32 → Int32 → Int32) :=
  if key = "band" then some (· &&& ·)
  else if key = "bor" then some (· ||| ·)
  else if key = "bxor" then some (· ^^^ ·)
  else none

def called : Expr → List LuaValue → Option LuaValue
  | .field (.name library) key, [number a] =>
    if library = "bit" ∧ key = "tobit" then some (number (wrapped a)) else none
  | .field (.name library) key, [number a, number b] =>
    if library = "bit" then
      (bitwise key).map fun f => number (f (Int32.ofInt a) (Int32.ofInt b)).toInt
    else none
  | .name function, [number a] =>
    if function = Helper.unsigned.name then exact (if a < 0 then a + 4294967296 else a) else none
  | .name function, [number a, number b] =>
    if function = Helper.longInt.name then some (long (wrapped a) (wrapped b)) else none
  | _, _ => none

def ofOperand (σ : Nat → LuaValue) : Operand → Option LuaValue
  | .slot n => some (σ n)
  | .literal (.const (.i32 n)) => some (number n.toInt)
  | .literal .nil => some nil
  | .literal _ | .missing => none

mutual

/-- The value of an expression. -/
def eval (σ : Nat → LuaValue) : Expr → Option LuaValue
  | .operand o => ofOperand σ o
  | .number n => exact n
  | .paren e => eval σ e
  | .binary .and l r => do
    let v ← eval σ l
    if v.holds then eval σ r else some v
  | .binary .or l r => do
    let v ← eval σ l
    if v.holds then some v else eval σ r
  | .binary op l r => do
    match ← eval σ l, ← eval σ r with
    | number a, number b => combined a b op
    | _, _ => none
  | .call function args => do called function (← evalAll σ args)
  | _ => none

def evalAll (σ : Nat → LuaValue) : List Expr → Option (List LuaValue)
  | [] => some []
  | e :: rest => do
    let v ← eval σ e
    let vs ← evalAll σ rest
    some (v :: vs)

end

end LuaValue

/-- What a statement that is no jump does to the slots. -/
def Stmt.exec (σ : Nat → LuaValue) : Stmt → Option (Nat → LuaValue)
  | assign [.operand (.slot d)] e => (LuaValue.eval σ e).map (Function.update σ d)
  | _ => none

/-- The domain of 32-bit integers. -/
def Domain.lua : Domain where
  Value := Moonstack.Value
  Cell := LuaValue
  cell := Moonstack.Value.lua
  empty := .nil
  const
    | .i32 n => some (.word n)
    | _ => none
  zero := Moonstack.Value.zero
  exec s σ := s.exec σ
  Ready c σ := (LuaValue.eval σ c).isSome = true
  Tests c σ b := (LuaValue.eval σ c).map LuaValue.holds = some b
  Unbounded := False
  Performs o args results := o.results args = some results
  Testable v := ∃ n, v = .word n
  Holds v b := b = decide (v ≠ .word 0)
  Selects v count i := ∃ n, v = .word n ∧ i = min n.toUInt32.toNat count

namespace Flow

open Domain

/-- The values that the code returns at a place, if it does so there. -/
def returns (code : List Line) (σ : Nat → LuaValue) : Place → Option (List LuaValue)
  | .line n =>
    match code[n]? with
    | some (.stmt (.ret operands)) => operands.mapM (LuaValue.ofOperand σ)
    | none => some []
    | _ => none
  | .arm _ => none

/-- The outcome of the condition at a place; where there is none, the outcome does not matter. -/
def decided (code : List Line) (σ : Nat → LuaValue) (p : Place) : Option Bool :=
  match test code p with
  | some c => (LuaValue.eval σ c).map LuaValue.holds
  | none => some false

/-- Runs the code from a place, for at most the given number of steps. -/
def run (code : List Line) : Nat → Place → (Nat → LuaValue) → Option (List LuaValue)
  | 0, _, _ => none
  | steps + 1, p, σ =>
    match returns code σ p with
    | some values => some values
    | none => do
      let b ← decided code σ p
      let τ ← lua.act code p b σ
      let q ← next code p b
      run code steps q τ

section

variable {code : List Line} {n : Nat} {p q : Place} {σ τ : lua.Store} {b : Bool}

/-- One step. -/
theorem run_step {steps : Nat} {values : List LuaValue} (hd : decided code σ p = some b)
    (ha : lua.act code p b σ = some τ) (hn : next code p b = some q)
    (h : run code steps q τ = some values) : run code (steps + 1) p σ = some values := by
  have hr : returns code σ p = none := by
    -- where the code returns, control goes nowhere
    cases p with
    | arm n => rfl
    | line n =>
      simp only [returns]
      split
      · rename_i hline
        simp [next, hline, follow, Stmt.goesOn] at hn
      · rename_i hline
        simp [next, hline] at hn
      · rfl
  simp only [run, hr, hd, ha, hn, Option.bind_eq_bind, Option.bind_some, h]

theorem ofOperand_of_has {o : Operand} {v : Value} (h : lua.Has σ o v) :
    LuaValue.ofOperand σ o = some v.lua := by
  cases o with
  | slot n => exact congrArg some h
  | missing => exact h.elim
  | literal l =>
    cases l with
    | const c =>
      cases c with
      | i32 n =>
        cases h
        rfl
      | _ => cases h
    | _ => exact h.elim

theorem mapM_ofOperand {operands : List Operand} {values : List Value}
    (h : List.Forall₂ (lua.Has σ) operands values) :
    operands.mapM (LuaValue.ofOperand σ) = some (values.map Value.lua) := by
  induction h with
  | nil => rfl
  | cons ho _ ih =>
    rw [List.mapM_cons, ofOperand_of_has ho, ih]
    rfl

/-- Runs that go well end with a return. -/
theorem terminates_of_runs {final : List Value → Prop} {m : Nat} (h : lua.Runs code final m p σ) :
    ∃ steps values, run code steps p σ = some (values.map Value.lua) ∧ final values := by
  induction h with
  | @step m p σ q τ ready acts runs ih =>
    obtain ⟨b, hd, hb⟩ : ∃ b, decided code σ p = some b ∧ lua.Decides code p σ b := by
      unfold decided Decides
      cases ht : test code p with
      | none => exact ⟨false, rfl, nofun⟩
      | some c =>
        obtain ⟨v, hv⟩ := Option.isSome_iff_exists.1 (ready c ht)
        refine ⟨v.holds, by simp [hv], fun c' hc => ?_⟩
        cases hc
        exact congrArg (Option.map LuaValue.holds) hv
    obtain ⟨ha, hn⟩ := acts b hb
    obtain ⟨steps, values, hrun, hfinal⟩ := ih b hb
    exact ⟨steps + 1, values, run_step hd ha hn hrun, hfinal⟩
  | @back m n k σ target line label runs ih =>
    obtain ⟨steps, values, hrun, hfinal⟩ := ih
    refine ⟨steps + 1, values, run_step (b := false) ?_ ?_ ?_ hrun, hfinal⟩
    · simp only [decided, test, line]
    · simp only [act, line, action]
    · simp only [next, line, follow, label, Option.map_some]
  | cut unbounded => exact unbounded.elim
  | ret line has accepted =>
    refine ⟨1, _, ?_, accepted⟩
    simp only [run, returns, line, mapM_ofOperand has]
  | fall line accepted =>
    refine ⟨1, [], ?_, accepted⟩
    simp only [run, returns, line, List.map_nil]
  | stop unbounded line => exact unbounded.elim

end

end Flow

end Moonstack
