import Moonstack.Proofs.Semantics.Machine

/-!
# Laws of 32-bit arithmetic

The generated code computes with 32-bit integers what the source does (`lawful_lua`). A 32-bit
integer is kept as its signed number:

* sums and differences of two such numbers are exact, and `bit.tobit` wraps them;
* signed comparisons are those of the numbers, unsigned ones are made of `__UNSIGNED__`;
* the index of a branch table is unsigned. A negative number is no index of a table of at most
  `2 ^ 31` targets, so tests against the signed number select the right arm.
-/

namespace Moonstack

/-- The signed number of a word, from the unsigned one. -/
theorem toInt_eq_toNat (x : Int32) : x.toInt =
    if x.toUInt32.toNat < 2 ^ 31 then (x.toUInt32.toNat : Int) else x.toUInt32.toNat - 2 ^ 32 := by
  have h := BitVec.toInt_eq_toNat_cond x.toBitVec
  rw [Int32.toInt_toBitVec, Int32.toNat_toBitVec] at h
  rw [h]
  split <;> split <;> omega

theorem toInt_eq_zero (x : Int32) : x.toInt = (0 : Nat) ↔ x = 0 := Int32.toInt_inj (y := 0)

namespace LuaValue

open Moonstack.Expr

variable {σ : Nat → LuaValue} {l r e : Expr} {a b : Int} {x y : Int32}

theorem exact_of_le (h : a.natAbs ≤ 2 ^ 53) : exact a = some (number a) := if_pos h

theorem eval_number {n : Nat} (h : n ≤ 2 ^ 53) : eval σ (.number n) = some (number n) :=
  exact_of_le h

theorem eval_binary (op : InfixOp) (hop : op ≠ .and ∧ op ≠ .or) (hl : eval σ l = some (number a))
    (hr : eval σ r = some (number b)) : eval σ (.binary op l r) = combined a b op := by
  cases op with
  | and => exact absurd rfl hop.1
  | or => exact absurd rfl hop.2
  | _ => simp only [eval, hl, hr, Option.bind_eq_bind, Option.bind_some]

theorem eval_or {c d : Bool} (hl : eval σ l = some (bool c)) (hr : eval σ r = some (bool d)) :
    eval σ (.binary .or l r) = some (bool (c || d)) := by
  cases c <;> simp [eval, hl, hr, holds]

theorem eval_flag {c : Bool} (h : eval σ e = some (bool c)) :
    eval σ (flag e) = some (Value.ofBool c).lua := by
  cases c <;> simp [flag, eval, h, holds, exact, Value.ofBool, Value.lua]

theorem eval_compared {op : InfixOp} {c : Bool} (hop : op ≠ .and ∧ op ≠ .or)
    (hl : eval σ l = some (number a)) (hr : eval σ r = some (number b))
    (hc : combined a b op = some (bool c)) : eval σ (compared op l r) = some (Value.ofBool c).lua :=
  eval_flag ((eval_binary op hop hl hr).trans hc)

theorem eval_toBit (h : eval σ e = some (number a)) :
    eval σ (toBit e) = some (number (Int32.ofInt a).toInt) := by
  simp [toBit, callField, eval, evalAll, h, called, wrapped]

theorem eval_bitwise {key : String} {f : Int32 → Int32 → Int32} (hf : bitwise key = some f)
    (hl : eval σ l = some (number x.toInt)) (hr : eval σ r = some (number y.toInt)) :
    eval σ (callField "bit" key [l, r]) = some (number (f x y).toInt) := by
  simp [callField, eval, evalAll, hl, hr, called, hf]

/-- The unsigned number of a word. -/
theorem eval_unsigned (h : eval σ e = some (number x.toInt)) :
    eval σ (callHelper .unsigned [e]) = some (number x.toUInt32.toNat) := by
  have hx := toInt_eq_toNat x
  have hlt := x.toUInt32.toNat_lt
  have heq : (if x.toInt < 0 then x.toInt + 4294967296 else x.toInt) = x.toUInt32.toNat := by
    split at hx <;> split <;> omega
  have hexact : exact (x.toUInt32.toNat : Int) = some (number x.toUInt32.toNat) :=
    exact_of_le (by omega)
  simp [callHelper, helper, eval, evalAll, h, called, heq, hexact]

theorem eval_zero (type : ValueType) : eval σ type.zero = some (Value.zero type).lua := by
  cases type <;> simp [ValueType.zero, callHelper, helper, eval, evalAll, called, exact, wrapped,
    Value.zero, Value.lua]

end LuaValue

section Operations

open LuaValue

variable {σ : Nat → LuaValue} {l r e : Expr} {x y : Int32}

/-- The spelling of an operation computes it. -/
theorem BinaryOp.eval_lower {op : BinaryOp} {f : Int32 → Int32 → Int32} {correct : Bool}
    (hf : op.onWords = some f) (he : op.lower correct .i32 l r = some e)
    (hl : eval σ l = some (number x.toInt)) (hr : eval σ r = some (number y.toInt)) :
    eval σ e = some (number (f x y).toInt) := by
  have hx := x.toInt_lt
  have hx' := x.le_toInt
  have hy := y.toInt_lt
  have hy' := y.le_toInt
  cases op with
  | add =>
    cases hf
    cases he
    have hsum : eval σ (.binary .add l r) = some (number (x.toInt + y.toInt)) :=
      (eval_binary .add ⟨nofun, nofun⟩ hl hr).trans (exact_of_le (by omega))
    rw [eval_toBit hsum, Int32.ofInt_add, Int32.ofInt_toInt, Int32.ofInt_toInt]
  | sub =>
    cases hf
    cases he
    have hdiff : eval σ (.binary .sub l r) = some (number (x.toInt - y.toInt)) :=
      (eval_binary .sub ⟨nofun, nofun⟩ hl hr).trans (exact_of_le (by omega))
    rw [eval_toBit hdiff, Int32.ofInt_sub, Int32.ofInt_toInt, Int32.ofInt_toInt]
  | and | or | xor =>
    cases hf
    cases he
    exact eval_bitwise rfl hl hr
  | _ => cases hf

/-- The spelling of a comparison computes it. -/
theorem Comparison.eval_lower {op : Comparison} {f : Int32 → Int32 → Bool}
    (hf : op.onWords = some f) (he : op.lower .i32 l r = some e)
    (hl : eval σ l = some (number x.toInt)) (hr : eval σ r = some (number y.toInt)) :
    eval σ e = some (Value.ofBool (f x y)).lua := by
  -- a comparison of the numbers as they are, or of the unsigned ones
  have hs {op : InfixOp} {c : Bool} (hop : op ≠ .and ∧ op ≠ .or)
      (hc : combined x.toInt y.toInt op = some (bool c)) :
      eval σ (compared op l r) = some (Value.ofBool c).lua := eval_compared hop hl hr hc
  have hu {op : InfixOp} {c : Bool} (hop : op ≠ .and ∧ op ≠ .or)
      (hc : combined x.toUInt32.toNat y.toUInt32.toNat op = some (bool c)) :
      eval σ (comparedUnsigned op l r) = some (Value.ofBool c).lua :=
    eval_compared hop (eval_unsigned hl) (eval_unsigned hr) hc
  cases op with
  | eq | ne => cases hf; cases he; exact hs ⟨nofun, nofun⟩ (by simp [combined, Int32.toInt_inj])
  | ltS | gtS =>
    cases hf; cases he; exact hs ⟨nofun, nofun⟩ (by simp [combined, Int32.lt_iff_toInt_lt])
  | leS | geS =>
    cases hf; cases he; exact hs ⟨nofun, nofun⟩ (by simp [combined, Int32.le_iff_toInt_le])
  | ltU | gtU =>
    cases hf; cases he; exact hu ⟨nofun, nofun⟩ (by simp [combined, UInt32.lt_iff_toNat_lt])
  | leU | geU =>
    cases hf; cases he; exact hu ⟨nofun, nofun⟩ (by simp [combined, UInt32.le_iff_toNat_le])
  | _ => cases hf

theorem eval_lowerEqz (he : lowerEqz .i32 l = some e) (hl : eval σ l = some (number x.toInt)) :
    eval σ e = some (Value.ofBool (decide (x = 0))).lua := by
  cases he
  refine eval_compared ⟨nofun, nofun⟩ hl (eval_number (by omega)) ?_
  simp only [combined, toInt_eq_zero]

end Operations

section Laws

open Domain LuaValue

variable {env : Env} {σ : lua.Store} {o : Operand}
variable {v : Value} {x : Int32} {d : Nat}

theorem eval_operand (h : lua.Has σ o v) : eval σ (.operand o) = some v.lua :=
  Flow.ofOperand_of_has h

/-- A comparison of a word with a number. -/
theorem eval_test (h : lua.Has σ o (.word x)) (op : InfixOp) (hop : op ≠ .and ∧ op ≠ .or) {n : Nat}
    (hn : n ≤ 2 ^ 31) : eval σ (.binary op (.operand o) (.number n)) = combined x.toInt n op :=
  eval_binary op hop (eval_operand h) (eval_number (by omega))

theorem eval_condition (h : lua.Has σ o (.word x)) {t : TableTest} {count : Nat}
    (ht : t.Fits count) (hc : count ≤ 2 ^ 31) :
    eval σ (t.condition o) = some (.bool (t.outcome x.toInt)) := by
  cases t with
  | equals n => exact eval_test h .eq (by decide) (Nat.le_trans (Nat.le_of_lt ht) hc)
  | below n => exact eval_test h .lt (by decide) (Nat.le_trans ht hc)
  | outside n =>
    obtain rfl : n = count := ht
    rw [TableTest.outcome, Bool.decide_or]
    exact eval_or (eval_test h .lt (by decide) (Nat.zero_le _)) (eval_test h .ge (by decide) hc)

theorem ready_of_eval {c : Expr} {v : LuaValue} (h : eval σ c = some v) : lua.Ready c σ :=
  Option.isSome_iff_exists.2 ⟨v, h⟩

/-- The outcome of a condition is its value. -/
theorem of_tests {c : Expr} {b b' : Bool} (h : lua.Tests c σ b)
    (he : eval σ c = some (.bool b')) : b = b' := by
  have h' : (eval σ c).map holds = some b := h
  rw [he] at h'
  cases b' <;> exact (Option.some.inj h').symm

/-- The results stand in their slots, and nothing else has changed. -/
def Delivers (σ : lua.Store) (slots : List Nat) (results : List Value) (τ : lua.Store) : Prop :=
  List.Forall₂ (fun d v => τ d = lua.cell v) slots results ∧ ∀ d, d ∉ slots → τ d = σ d

theorem exec_assign {e : Expr} (he : eval σ e = some v.lua) :
    lua.exec (.assign [.slot d] e) σ = some (Function.update σ d v.lua) :=
  congrArg (Option.map (Function.update σ d)) he

theorem delivers_update (d : Nat) (v : Value) : Delivers σ [d] [v] (Function.update σ d v.lua) :=
  ⟨.cons (Function.update_self _ _ _) .nil,
    fun d' hd => Function.update_of_ne (by simpa using hd) _ _⟩

theorem through_assign {e : Expr} (he : eval σ e = some v.lua) :
    lua.Through (Delivers σ [d] [v]) [.stmt (.assign [.slot d] e)] σ :=
  ⟨rfl, _, exec_assign he, delivers_update d v⟩

theorem through_select {x y c : Operand} {vx vy : Value} {n : Int32} (hx : lua.Has σ x vx)
    (hy : lua.Has σ y vy) (hc : lua.Has σ c (.word n)) :
    lua.Through (Delivers σ [d] [if n = 0 then vy else vx])
      [.choice (.binary .ne (.operand c) (.number 0)) (.assign [.slot d] (.operand x))
        (.assign [.slot d] (.operand y))] σ := by
  have htest := eval_test hc .ne ⟨nofun, nofun⟩ (Nat.zero_le _)
  refine ⟨ready_of_eval htest, rfl, rfl, fun b hb => ?_⟩
  obtain rfl := of_tests hb htest
  refine ⟨_, ?_, delivers_update d _⟩
  by_cases hn : n = 0
  · simp only [ne_eq, toInt_eq_zero, hn, not_true, decide_false, Bool.false_eq_true, if_true, if_false]
    exact exec_assign (eval_operand hy)
  · simp only [ne_eq, toInt_eq_zero, hn, not_false_iff, decide_true, if_true, if_false]
    exact exec_assign (eval_operand hx)

theorem through_binary {lower : Expr → Expr → Option Expr} {p : Plain} {x y : Operand}
    {slots : List Nat} (hp : Plain.binary lower = some p)
    (hsome : ∀ x y x' y', (lower x y).isSome = (lower x' y').isSome)
    (hl : ∀ e, lower (.operand x) (.operand y) = some e → eval σ e = some v.lua)
    (hs : slots.length = p.pushes) :
    lua.Through (Delivers σ slots [v]) (p.code [x, y] slots) σ := by
  obtain ⟨d, rfl⟩ := List.length_eq_one_iff.1 (hs.trans (Plain.size_binary hp).2)
  obtain ⟨e, he, hcode⟩ := Plain.code_binary hp hsome x y d
  rw [hcode]
  exact through_assign (hl e he)

/-- The code of a plain instruction computes its results. -/
theorem performs_lua {o : Op} {p : Plain} {args results : List Value} {operands : List Operand}
    {slots : List Nat} (hp : o.plain env = some p) (hr : o.results args = some results)
    (ho : List.Forall₂ (lua.Has σ) operands args) (hs : slots.length = p.pushes) :
    lua.Through (Delivers σ slots results) (p.code operands slots) σ := by
  unfold Op.results at hr
  split at hr
  · -- nothing is done
    cases hp
    cases hr
    rw [List.length_eq_zero_iff.1 hs]
    exact ⟨.nil, fun _ _ => rfl⟩
  · -- a value is dropped
    cases hp
    cases hr
    rw [List.length_eq_zero_iff.1 hs]
    exact ⟨.nil, fun _ _ => rfl⟩
  · -- one of two values is selected
    cases hp
    cases hr
    obtain ⟨d, rfl⟩ := List.length_eq_one_iff.1 hs
    rcases ho with _ | ⟨hx, _ | ⟨hy, _ | ⟨hc, _ | _⟩⟩⟩
    exact through_select hx hy hc
  · -- a test for zero
    cases hp
    cases hr
    obtain ⟨d, rfl⟩ := List.length_eq_one_iff.1 hs
    rcases ho with _ | ⟨hx, _ | _⟩
    exact through_assign (eval_lowerEqz rfl (eval_operand hx))
  · obtain ⟨f, hf, rfl⟩ := Option.map_eq_some_iff.1 hr
    rcases ho with _ | ⟨hx, _ | ⟨hy, _ | _⟩⟩
    exact through_binary hp (Comparison.lower_isSome .i32 _)
      (fun e he => Comparison.eval_lower hf he (eval_operand hx) (eval_operand hy)) hs
  · obtain ⟨f, hf, rfl⟩ := Option.map_eq_some_iff.1 hr
    rcases ho with _ | ⟨hx, _ | ⟨hy, _ | _⟩⟩
    exact through_binary hp (BinaryOp.lower_isSome _ .i32 _)
      (fun e he => BinaryOp.eval_lower hf he (eval_operand hx) (eval_operand hy)) hs
  · cases hr

/-- The generated code computes what the source does. -/
theorem lawful_lua (h : env.options.branchTableLimit ≤ 2 ^ 31) : lua.Lawful env where
  exec_copy d ho := exec_assign (eval_operand ho)
  exec_zero σ d type := exec_assign (eval_zero type)
  ready_zero op ho hop := by
    obtain ⟨ho, x, rfl⟩ := ho
    obtain rfl | rfl := hop
    · exact ready_of_eval (eval_test ho .eq ⟨nofun, nofun⟩ (Nat.zero_le _))
    · exact ready_of_eval (eval_test ho .ne ⟨nofun, nofun⟩ (Nat.zero_le _))
  ready_test ho ht hcount := by
    obtain ⟨ho, x, rfl⟩ := ho
    exact ready_of_eval (eval_condition ho ht (by omega))
  tests_ne ho ht := by
    obtain ⟨ho, x, rfl⟩ := ho
    refine (of_tests ht (eval_test ho .ne ⟨nofun, nofun⟩ (Nat.zero_le _))).trans ?_
    simp only [ne_eq, toInt_eq_zero, Value.word.injEq]
  tests_eq ho ht := by
    obtain ⟨ho, x, rfl⟩ := ho
    have hb := of_tests ht (eval_test ho .eq ⟨nofun, nofun⟩ (Nat.zero_le _))
    refine (congrArg (!·) hb).trans ?_
    simp only [ne_eq, toInt_eq_zero, Value.word.injEq, decide_not]
  selects ho hcount hp := by
    obtain ⟨ho, x, rfl⟩ := ho
    have hi := (hp.mono fun ht h => (of_tests h (eval_condition ho ht (by omega))).symm).outcome
    have hx := toInt_eq_toNat x
    have hlt := x.toUInt32.toNat_lt
    refine ⟨x, rfl, ?_⟩
    split at hx <;> split at hi <;> omega
  performs hp hr _ _ ho hs _ := performs_lua hp hr ho hs

end Laws

end Moonstack
