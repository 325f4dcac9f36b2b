import Mathlib.Logic.Function.Basic
import Moonstack.Proofs.Emission.Plain
import Moonstack.Proofs.Emission.Tables

/-!
# Runs of generated code

A `Domain` says what the generated code computes with: what a slot can hold, what a statement does to
the slots, and which outcomes a condition may have. One domain gives the code its meaning, another
one only follows which slots have been assigned.

`Domain.Runs code final m p σ` says that every run of the code from the place `p` with the slots `σ`
goes well: what it reads can be read, and it comes to an end with values that `final` accepts. The
number `m` counts jumps back to the start of a loop; in a domain that has `unbounded` runs, a run may
also use them up. `Domain.Lawful` collects what the domain has to satisfy for this.
-/

namespace Moonstack

open Moonstack.Flow

/-- What code computes with. -/
structure Domain where
  Value : Type
  Cell : Type
  cell : Value → Cell
  empty : Cell
  const : Const → Option Value
  zero : ValueType → Value
  /-- what a statement that is no jump does to the slots -/
  exec : Stmt → (Nat → Cell) → Option (Nat → Cell)
  Ready : Expr → (Nat → Cell) → Prop
  Tests : Expr → (Nat → Cell) → Bool → Prop
  /-- runs may be cut off -/
  Unbounded : Prop
  /-- the results of a plain instruction -/
  Performs : Op → List Value → List Value → Prop
  Testable : Value → Prop
  Holds : Value → Bool → Prop
  /-- the number that a value selects out of a number of targets; the number of targets itself stands
  for the fallback -/
  Selects : Value → Nat → Nat → Prop

namespace Domain

variable (D : Domain)

/-- What the slots hold. -/
abbrev Store : Type := Nat → D.Cell

/-- The operand has the value. -/
def Has (σ : D.Store) : Operand → D.Value → Prop
  | .slot n, v => σ n = D.cell v
  | .literal (.const c), v => D.const c = some v
  | _, _ => False

/-- The operand has the value, and a condition can be made of it. -/
def Shows (σ : D.Store) (o : Operand) (v : D.Value) : Prop := D.Has σ o v ∧ D.Testable v

/-- What happens to the slots at a place, by the outcome of the condition. -/
def act (code : List Line) (p : Flow.Place) (b : Bool) (σ : D.Store) : Option D.Store :=
  match p with
  | .line n =>
    match code[n]? with
    | some (.declare slots) => some fun s => if s ∈ slots then D.empty else σ s
    | _ =>
      match action code p b with
      | none | some (.goto _) => some σ
      | some s => D.exec s σ
  | .arm _ => some σ

/-- The condition at a place may have the outcome. -/
def Decides (code : List Line) (p : Flow.Place) (σ : D.Store) (b : Bool) : Prop :=
  ∀ c, test code p = some c → D.Tests c σ b

/-- All runs from a place go well. -/
inductive Runs (code : List Line) (final : List D.Value → Prop) : Nat → Flow.Place → D.Store → Prop
  | step {m : Nat} {p : Flow.Place} {σ : D.Store} (q : Bool → Flow.Place) (τ : Bool → D.Store)
      (ready : ∀ c, test code p = some c → D.Ready c σ)
      (acts : ∀ b, D.Decides code p σ b →
        D.act code p b σ = some (τ b) ∧ next code p b = some (q b))
      (runs : ∀ b, D.Decides code p σ b → Runs code final m (q b) (τ b)) : Runs code final m p σ
  | back {m n k : Nat} {σ : D.Store} {target : Label} (line : code[n]? = some (.stmt (.goto target)))
      (label : labelAt code target = some k) (runs : Runs code final m (.line k) σ) :
      Runs code final (m + 1) (.line n) σ
  /-- no jumps back are left -/
  | cut {p : Flow.Place} {σ : D.Store} (unbounded : D.Unbounded) : Runs code final 0 p σ
  | ret {m n : Nat} {σ : D.Store} {operands : List Operand} {values : List D.Value}
      (line : code[n]? = some (.stmt (.ret operands)))
      (has : List.Forall₂ (D.Has σ) operands values) (accepted : final values) :
      Runs code final m (.line n) σ
  | fall {m n : Nat} {σ : D.Store} (line : code[n]? = none) (accepted : final []) :
      Runs code final m (.line n) σ
  | stop {m n : Nat} {σ : D.Store} {message : String} (unbounded : D.Unbounded)
      (line : code[n]? = some (.stmt (.run (.error message)))) : Runs code final m (.line n) σ

/-- Straight-line code goes well and leads to slots that satisfy `Q`. -/
def Through (Q : D.Store → Prop) : List Line → D.Store → Prop
  | [], σ => Q σ
  | .stmt s :: rest, σ => s.goesOn = true ∧ ∃ τ, D.exec s σ = some τ ∧ Through Q rest τ
  | .choice c s t :: rest, σ => D.Ready c σ ∧ s.goesOn = true ∧ t.goesOn = true ∧
    ∀ b, D.Tests c σ b → ∃ τ, D.exec (if b then s else t) σ = some τ ∧ Through Q rest τ
  | _ :: _, _ => False

theorem Through.mono {D : Domain} {Q R : D.Store → Prop} (h : ∀ τ, Q τ → R τ) {part : List Line}
    {σ : D.Store} (hq : D.Through Q part σ) : D.Through R part σ := by
  induction part generalizing σ with
  | nil => exact h σ hq
  | cons l rest ih =>
    cases l with
    | stmt s =>
      obtain ⟨hs, τ, he, hτ⟩ := hq
      exact ⟨hs, τ, he, ih hτ⟩
    | choice c s t =>
      obtain ⟨hr, hs, ht, hq⟩ := hq
      refine ⟨hr, hs, ht, fun b hb => ?_⟩
      obtain ⟨τ, he, hτ⟩ := hq b hb
      exact ⟨τ, he, ih hτ⟩
    | _ => exact hq.elim

theorem Through.append {D : Domain} {Q : D.Store → Prop} {part more : List Line} {σ : D.Store}
    (h : D.Through (D.Through Q more) part σ) : D.Through Q (part ++ more) σ := by
  induction part generalizing σ with
  | nil => exact h
  | cons l rest ih =>
    cases l with
    | stmt s =>
      obtain ⟨hs, τ, he, hτ⟩ := h
      exact ⟨hs, τ, he, ih hτ⟩
    | choice c s t =>
      obtain ⟨hr, hs, ht, h⟩ := h
      refine ⟨hr, hs, ht, fun b hb => ?_⟩
      obtain ⟨τ, he, hτ⟩ := h b hb
      exact ⟨τ, he, ih hτ⟩
    | _ => exact h.elim

/-- What is asked of a domain for the code of an environment. -/
structure Lawful (env : Env) : Prop where
  exec_copy : ∀ {σ : D.Store} {o v} (d : Nat), D.Has σ o v →
    D.exec (.assign [.slot d] (.operand o)) σ = some (Function.update σ d (D.cell v))
  exec_zero : ∀ (σ : D.Store) (d : Nat) (type : ValueType),
    D.exec (.assign [.slot d] type.zero) σ = some (Function.update σ d (D.cell (D.zero type)))
  ready_zero : ∀ {σ : D.Store} {o v} (op : InfixOp), D.Shows σ o v → op = .eq ∨ op = .ne →
    D.Ready (.binary op (.operand o) (.number 0)) σ
  ready_test : ∀ {σ : D.Store} {o v count} {t : TableTest}, D.Shows σ o v → t.Fits count →
    count + 1 ≤ env.options.branchTableLimit → D.Ready (t.condition o) σ
  tests_ne : ∀ {σ : D.Store} {o v b}, D.Shows σ o v →
    D.Tests (.binary .ne (.operand o) (.number 0)) σ b → D.Holds v b
  tests_eq : ∀ {σ : D.Store} {o v b}, D.Shows σ o v →
    D.Tests (.binary .eq (.operand o) (.number 0)) σ b → D.Holds v (!b)
  selects : ∀ {σ : D.Store} {o v count i}, D.Shows σ o v →
    count + 1 ≤ env.options.branchTableLimit →
    Choice.Picks (fun t b => D.Tests (t.condition o) σ b) count i → D.Selects v count i
  performs : ∀ {σ : D.Store} {o p args results operands} {slots : List Nat},
    o.plain env = some p → D.Performs o args results →
    args.length = p.pops → results.length = p.pushes →
    List.Forall₂ (D.Has σ) operands args → slots.length = p.pushes → slots.Nodup →
    D.Through (fun τ => List.Forall₂ (fun d v => τ d = D.cell v) slots results ∧
      ∀ d, d ∉ slots → τ d = σ d) (p.code operands slots) σ

/-- An operand is brought to a slot. -/
theorem Through.copied {D : Domain} {env : Env} {Q : D.Store → Prop} {σ : D.Store}
    (hD : D.Lawful env) {d : Nat} {o : Operand} {v : D.Value} (ho : D.Has σ o v)
    (h : Q (Function.update σ d (D.cell v))) : D.Through Q (Emit.copied d o) σ := by
  by_cases he : o = .slot d
  · -- the operand is the slot itself
    subst he
    have hsame : Function.update σ d (D.cell v) = σ := by
      rw [← show σ d = D.cell v from ho, Function.update_eq_self]
    rw [Emit.copied, if_neg (by simp)]
    exact hsame ▸ h
  · rw [Emit.copied, if_pos he]
    exact ⟨rfl, _, hD.exec_copy d ho, h⟩

section Rules

variable {D} {code : List Line} {final : List D.Value → Prop} {m n : Nat} {σ τ : D.Store}
  {l : Line}

/-- The slots after a statement that is no jump. -/
theorem act_of_goesOn {s : Stmt} {b : Bool} (hd : ∀ slots, code[n]? ≠ some (.declare slots))
    (ha : action code (.line n) b = some s) (hs : s.goesOn = true) :
    D.act code (.line n) b σ = D.exec s σ := by
  simp only [act, ha]
  cases s with
  | goto target => cases hs
  | _ => rfl

namespace Runs

variable {k : Nat} {target : Label} {c : Expr}

theorem cast (h : D.Runs code final m (.line k) σ) (e : k = n) :
    D.Runs code final m (.line n) σ := e ▸ h

/-! One rule for each kind of line. -/

/-- A line without a condition. -/
theorem pass {q : Flow.Place} (ht : test code (.line n) = none)
    (ha : ∀ b, D.act code (.line n) b σ = some τ) (hn : ∀ b, next code (.line n) b = some q)
    (h : D.Runs code final m q τ) : D.Runs code final m (.line n) σ :=
  .step (fun _ => q) (fun _ => τ) (fun c hc => by rw [ht] at hc; cases hc)
    (fun b _ => ⟨ha b, hn b⟩) (fun _ _ => h)

/-- A place with a condition. -/
theorem fork {p yes no : Flow.Place} (ht : test code p = some c) (hr : D.Ready c σ)
    (ha : ∀ b, D.act code p b σ = some σ) (hn : ∀ b, next code p b = some (if b then yes else no))
    (hyes : D.Tests c σ true → D.Runs code final m yes σ)
    (hno : D.Tests c σ false → D.Runs code final m no σ) : D.Runs code final m p σ := by
  refine .step (fun b => if b then yes else no) (fun _ => σ) (fun c' hc => ?_)
    (fun b _ => ⟨ha b, hn b⟩) (fun b hb => ?_)
  · rw [ht] at hc
    cases hc
    exact hr
  · have hb' := hb c ht
    cases b with
    | true => exact hyes hb'
    | false => exact hno hb'

/-- A line that does nothing. -/
theorem idle (hline : code[n]? = some l) (hl : l matches .comment _ | .label _ | .forever)
    (h : D.Runs code final m (.line (n + 1)) σ) : D.Runs code final m (.line n) σ := by
  cases l with
  | comment | label | forever =>
    refine .pass ?_ (fun b => ?_) (fun b => ?_) h
    · simp only [test, hline]
    · simp only [act, hline, action]
    · simp only [next, hline]
  | _ => cases hl

theorem declare {slots : List Nat} (hline : code[n]? = some (.declare slots))
    (h : D.Runs code final m (.line (n + 1)) fun s => if s ∈ slots then D.empty else σ s) :
    D.Runs code final m (.line n) σ := by
  refine .pass ?_ (fun b => ?_) (fun b => ?_) h
  · simp only [test, hline]
  · simp only [act, hline]
  · simp only [next, hline]

theorem goto (hline : code[n]? = some (.stmt (.goto target))) (hl : labelAt code target = some k)
    (h : D.Runs code final m (.line k) σ) : D.Runs code final m (.line n) σ := by
  refine .pass ?_ (fun b => ?_) (fun b => ?_) h
  · simp only [test, hline]
  · simp only [act, hline, action]
  · simp only [next, hline, follow, hl, Option.map_some]

theorem stmt {s : Stmt} (hline : code[n]? = some (.stmt s)) (hs : s.goesOn = true)
    (he : D.exec s σ = some τ) (h : D.Runs code final m (.line (n + 1)) τ) :
    D.Runs code final m (.line n) σ := by
  refine .pass ?_ (fun b => ?_) (fun b => ?_) h
  · simp only [test, hline]
  · rw [act_of_goesOn (by simp [hline]) (by simp only [action, hline]) hs]
    exact he
  · simp only [next, hline, follow_of_goesOn hs]

/-- A loop that is left at its end. -/
theorem leave {labels : List Label} {part rest : List Line} (hs : Shape labels part)
    (hat : At code n (.forever :: part ++ .leave :: .close :: rest))
    (h : D.Runs code final m (.line (n + 1 + part.length + 2)) σ) :
    D.Runs code final m (.line (n + 1 + part.length)) σ := by
  have hline : code[n + 1 + part.length]? = some .leave := hat.tail.get_after
  refine .pass ?_ (fun b => ?_) (fun b => next_leave hs hat) h
  · simp only [test, hline]
  · simp only [act, hline, action]

/-- A line that jumps if its condition holds. -/
theorem guard (hline : code[n]? = some (.guard c (.goto target)))
    (hl : labelAt code target = some k) (hr : D.Ready c σ)
    (hyes : D.Tests c σ true → D.Runs code final m (.line k) σ)
    (hno : D.Tests c σ false → D.Runs code final m (.line (n + 1)) σ) :
    D.Runs code final m (.line n) σ := by
  refine .fork ?_ hr (fun b => ?_) (fun b => ?_) hyes hno
  · simp only [test, hline]
  · cases b <;> simp only [act, hline, action, Bool.false_eq_true, if_false, if_true]
  · cases b <;> simp only [next, hline, follow, hl, Option.map_some, Bool.false_eq_true, if_false,
      if_true]

/-- The first arm of an `if`. -/
theorem ifThen (hline : code[n]? = some (.ifThen c)) (hr : D.Ready c σ)
    (hyes : D.Tests c σ true → D.Runs code final m (.line (n + 1)) σ)
    (hno : D.Tests c σ false → D.Runs code final m (nextArm code n) σ) :
    D.Runs code final m (.line n) σ := by
  refine .fork ?_ hr (fun b => ?_) (fun b => ?_) hyes hno
  · simp only [test, hline]
  · simp only [act, hline, action]
  · simp only [next, hline]

/-- A further arm of an `if`. -/
theorem elseIf (hline : code[n]? = some (.elseIf c)) (hr : D.Ready c σ)
    (hyes : D.Tests c σ true → D.Runs code final m (.line (n + 1)) σ)
    (hno : D.Tests c σ false → D.Runs code final m (nextArm code n) σ) :
    D.Runs code final m (.arm n) σ := by
  refine .fork ?_ hr (fun b => rfl) (fun b => ?_) hyes hno
  · simp only [test, hline]
  · simp only [next, hline]

/-- The last arm of an `if`, or its close. -/
theorem lastArm (hline : code[n]? = some .otherwise ∨ code[n]? = some .close)
    (h : D.Runs code final m (.line (n + 1)) σ) : D.Runs code final m (.arm n) σ := by
  refine .step (fun _ => .line (n + 1)) (fun _ => σ) (fun c hc => ?_) (fun b _ => ⟨rfl, ?_⟩)
    (fun _ _ => h)
  · rcases hline with hline | hline <;> simp only [test, hline] at hc <;> cases hc
  · rcases hline with hline | hline <;> simp only [next, hline]

/-! Rules for parts of code. -/

theorem comments {texts : List String} (hat : At code n (texts.map .comment))
    (h : D.Runs code final m (.line (n + texts.length)) σ) : D.Runs code final m (.line n) σ := by
  induction texts generalizing n with
  | nil => exact h
  | cons text rest ih =>
    refine .idle hat.get rfl (ih hat.tail ?_)
    rwa [List.length_cons, Nat.add_comm rest.length, ← Nat.add_assoc] at h

/-- Straight-line code. -/
theorem through {Q : D.Store → Prop} {part : List Line} (hq : D.Through Q part σ)
    (hat : At code n part) (h : ∀ τ, Q τ → D.Runs code final m (.line (n + part.length)) τ) :
    D.Runs code final m (.line n) σ := by
  induction part generalizing n σ with
  | nil => exact h σ hq
  | cons l rest ih =>
    have hrest {τ : D.Store} (hτ : D.Through Q rest τ) : D.Runs code final m (.line (n + 1)) τ := by
      refine ih hτ hat.tail fun τ' hQ => ?_
      have h' := h τ' hQ
      rwa [List.length_cons, Nat.add_comm rest.length, ← Nat.add_assoc] at h'
    cases l with
    | stmt s =>
      obtain ⟨hs, τ, he, hτ⟩ := hq
      exact .stmt hat.get hs he (hrest hτ)
    | choice c s t =>
      obtain ⟨hr, hs, ht, hq⟩ := hq
      have hline := hat.get
      have htest : test code (.line n) = some c := by simp only [test, hline]
      have hgo (b : Bool) : (if b then s else t).goesOn = true := by cases b <;> assumption
      -- the slots behind the line, for each outcome of the condition
      have hτ (b : Bool) : ∃ τ, D.Decides code (.line n) σ b →
          D.exec (if b then s else t) σ = some τ ∧ D.Through Q rest τ := by
        by_cases hb : D.Decides code (.line n) σ b
        · obtain ⟨τ, hτ⟩ := hq b (hb c htest)
          exact ⟨τ, fun _ => hτ⟩
        · exact ⟨σ, fun h => absurd h hb⟩
      choose τ hτ using hτ
      refine .step (fun _ => .line (n + 1)) τ (fun c' hc => ?_) (fun b hb => ⟨?_, ?_⟩)
        (fun b hb => hrest (hτ b hb).2)
      · rw [htest] at hc
        cases hc
        exact hr
      · rw [act_of_goesOn (by simp [hline]) (by simp only [action, hline]) (hgo b)]
        exact (hτ b hb).1
      · simp only [next, hline, follow_of_goesOn (hgo b)]
    | _ => exact hq.elim

end Runs

end Rules

end Domain

end Moonstack
