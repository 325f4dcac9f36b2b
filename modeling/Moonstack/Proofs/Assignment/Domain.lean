import Moonstack.Proofs.Semantics.Templates
import Moonstack.Proofs.Simulation.Domain

/-!
# Assigned slots

The domain that only follows which slots have been assigned. A slot holds `true` once it has been
assigned; a statement can be run if all slots that it reads have been, and a condition may have
either outcome. What is written for an instruction reads nothing but its operands, and assigns all
its results, so the domain follows the generated code (`lawful_assigned`).
-/

namespace Moonstack

/-- All slots of the expression have been assigned. -/
def Expr.Assigned (σ : Nat → Bool) (e : Expr) : Prop := ∀ n ∈ e.slots, σ n = true

namespace Expr

variable {σ : Nat → Bool}

theorem assigned_slot (n : Nat) : Assigned σ (slot n) ↔ σ n = true := by
  simp [Assigned, slot, Operand.slots]

theorem assigned_binary (op : InfixOp) (l r : Expr) :
    Assigned σ (.binary op l r) ↔ Assigned σ l ∧ Assigned σ r := by
  rw [Assigned, slots, operands, List.flatMap_append]
  exact List.forall_mem_append

end Expr

/-- The slots that a statement reads are those of its operands. -/
theorem Stmt.reads_eq {s : Stmt} (ha : s.acts = true) :
    s.reads = s.operands.flatMap Operand.slots := by
  cases s with
  | assign targets value =>
    rw [reads, operands, List.flatMap_append, Expr.allSlots, Expr.slots]
  | run e => rfl
  | _ => cases ha

/-- The domain of assigned slots. -/
def Domain.assigned : Domain where
  Value := Unit
  Cell := Bool
  cell _ := true
  empty := false
  const _ := some ()
  zero _ := ()
  exec s σ := if s.goesOn && s.reads.all σ then some fun n => σ n || s.assigns.contains n else none
  Ready c σ := c.Assigned σ
  Tests _ _ _ := True
  Unbounded := True
  Performs _ _ _ := True
  Testable _ := True
  Holds _ _ := True
  Selects _ count i := i ≤ count

namespace Domain

variable {σ : Nat → Bool}

theorem assigned_operand {o : Operand} {v : Unit} (h : assigned.Has σ o v) :
    Expr.Assigned σ (.operand o) := by
  cases o with
  | slot n => exact (Expr.assigned_slot n).2 h
  | literal | missing => exact nofun

/-- An operand is compared with a number. -/
theorem assigned_test {o : Operand} {v : Unit} (h : assigned.Shows σ o v) (op : InfixOp) (n : Nat) :
    Expr.Assigned σ (.binary op (.operand o) (.number n)) :=
  (Expr.assigned_binary op _ _).2 ⟨assigned_operand h.1, fun _ hn => absurd hn List.not_mem_nil⟩

theorem assigned_operands {operands : List Operand} {values : List Unit}
    (h : List.Forall₂ (assigned.Has σ) operands values) :
    ∀ o ∈ operands, Expr.Assigned σ (.operand o) := by
  induction h with
  | nil => exact nofun
  | cons ho _ ih => exact List.forall_mem_cons.2 ⟨assigned_operand ho, ih⟩

/-- What has been assigned after a statement that can be run. -/
theorem exec_assigned {s : Stmt} (hs : s.goesOn = true) (hr : ∀ n ∈ s.reads, σ n = true) :
    assigned.exec s σ = some fun n => σ n || s.assigns.contains n :=
  if_pos (Bool.and_eq_true_iff.2 ⟨hs, List.all_eq_true.2 hr⟩)

/-- The slots after code that assigns the given ones. -/
def marked (slots : List Nat) (σ : Nat → Bool) (n : Nat) : Bool := σ n || slots.contains n

theorem exec_slot {d : Nat} {e : Expr} (he : e.Assigned σ) :
    assigned.exec (.assign [.slot d] e) σ = some (marked [d] σ) := exec_assigned rfl he

theorem marked_singleton (σ : Nat → Bool) (d : Nat) : marked [d] σ = Function.update σ d true := by
  funext n
  by_cases h : n = d <;> simp [marked, h]

end Domain

open Domain

/-- The results are assigned, and no other slots. -/
def Fills (slots : List Nat) (σ τ : Nat → Bool) : Prop :=
  (∀ d ∈ slots, τ d = true) ∧ ∀ d, d ∉ slots → τ d = σ d

theorem fills_marked (slots : List Nat) (σ : Nat → Bool) : Fills slots σ (marked slots σ) :=
  ⟨fun d hd => by simp [marked, hd], fun d hd => by simp [marked, hd]⟩

namespace Plain

/-- The code of the instruction reads its operands and assigns its results. -/
def Tidy (p : Plain) : Prop :=
  ∀ {σ : Nat → Bool} {operands : List Operand} {slots : List Nat}, operands.length = p.pops →
    slots.length = p.pushes → (∀ o ∈ operands, Expr.Assigned σ (.operand o)) →
    assigned.Through (Fills slots σ) (p.code operands slots) σ

theorem tidy_discard (pops : Nat) : (discard pops).Tidy := by
  intro σ operands slots _ hs _
  rw [List.length_eq_zero_iff.1 hs]
  exact ⟨nofun, fun _ _ => rfl⟩

theorem tidy_select : select.Tidy := by
  intro σ operands slots ho hd ha
  obtain ⟨x, y, c, rfl⟩ := List.length_eq_three.1 ho
  obtain ⟨d, rfl⟩ := List.length_eq_one_iff.1 hd
  refine ⟨(Expr.assigned_binary _ _ _).2 ⟨ha c (by simp), nofun⟩, rfl, rfl, fun b _ => ?_⟩
  -- either value goes to the same slot
  cases b with
  | true => exact ⟨_, exec_slot (ha x (by simp)), fills_marked [d] σ⟩
  | false => exact ⟨_, exec_slot (ha y (by simp)), fills_marked [d] σ⟩

/-- The statements of a template run through: what they read is an operand or has been assigned. -/
theorem through_template {θ : Nat → Operand} {d : Nat → Nat} {k n : Nat} {slots S : List Nat}
    {σ τ : Nat → Bool} {code : List Stmt}
    (hθ : ∀ {m}, k ≤ m → m < n → θ m = .slot (d m) ∧ d m ∈ slots)
    (hslots : ∀ e ∈ slots, ∃ m, k ≤ m ∧ m < n ∧ d m = e)
    (hS : ∀ m ∈ S, Expr.Assigned τ (.operand (θ m))) (hframe : ∀ e, e ∉ slots → τ e = σ e)
    (hgo : code.all Stmt.goesOn = true) (hfit : Stmt.allFit k n S code = true) :
    assigned.Through (Fills slots σ) ((code.map (Stmt.subst θ)).map .stmt) τ := by
  -- along the code: all slots of `S` have been assigned, and nothing outside of `slots` has changed
  induction code generalizing S τ with
  | nil =>
    refine ⟨fun e he => ?_, hframe⟩
    obtain ⟨m, hk, hn, rfl⟩ := hslots e he
    simp only [Stmt.allFit, List.all_eq_true, List.mem_range'_1, List.contains_iff_mem] at hfit
    have hm := hS m (hfit m ⟨hk, by omega⟩)
    rw [(hθ hk hn).1] at hm
    exact (Expr.assigned_slot _).1 hm
  | cons s rest ih =>
    obtain ⟨hgoes, hgo⟩ := Bool.and_eq_true_iff.1 hgo
    obtain ⟨hs, hrest⟩ := Bool.and_eq_true_iff.1 hfit
    simp only [Stmt.fits, Bool.and_eq_true, List.all_eq_true, decide_eq_true_eq] at hs
    obtain ⟨⟨hacts, hreads⟩, hchanges⟩ := hs
    have hplace : ∀ m ∈ s.changes, θ m = .slot (d m) := fun m hm =>
      (hθ (hchanges m hm).1 (hchanges m hm).2).1
    have hoperand : ∀ m, .slot m ∈ s.operands → m ∈ S := fun m hm => by
      simpa [Operand.slots] using hreads _ hm
    have hread : ∀ e ∈ (s.subst θ).reads, τ e = true := by
      rw [Stmt.reads_eq ((Stmt.acts_subst θ s).trans hacts), Stmt.operands_subst hacts hplace]
      intro e he
      obtain ⟨o', ho', he⟩ := List.mem_flatMap.1 he
      obtain ⟨o, ho, rfl⟩ := List.mem_map.1 ho'
      cases o with
      | slot m => exact hS m (hoperand m ho) e (by rwa [Expr.slots_operand])
      | _ => cases he
    refine ⟨(Stmt.goesOn_subst θ s).trans hgoes, _,
      exec_assigned ((Stmt.goesOn_subst θ s).trans hgoes) hread, ?_⟩
    rw [Stmt.assigns_subst hplace]
    refine ih (fun m hm e he => ?_) (fun e he => ?_) hgo hrest
    · rw [Bool.or_eq_true]
      obtain hm | hm := List.mem_append.1 hm
      · exact .inl (hS m hm e he)
      obtain hm' | hm' := Stmt.assigns_of_changes hm
      · rw [hplace m hm] at he
        rw [List.mem_singleton.1 he]
        exact .inr (List.contains_iff_mem.2 (List.mem_map_of_mem hm'))
      · exact .inl (hS m (hoperand m hm') e he)
    · rw [hframe e he, Bool.or_eq_left_iff_imp]
      intro hc
      obtain ⟨m, hm, rfl⟩ := List.mem_map.1 (List.contains_iff_mem.1 hc)
      obtain ⟨hk, hn⟩ := hchanges m (Stmt.assigns_subset_changes hm)
      exact absurd (hθ hk hn).2 he

theorem Realizes.tidy {p : Plain} {t : Template} (h : p.Realizes t) : p.Tidy := by
  intro σ xs ds hxs hds ha
  obtain ⟨hgo, hfit⟩ := Bool.and_eq_true_iff.1 h.fits
  rw [h.pops] at hxs
  rw [h.pushes] at hds
  rw [← hxs, ← hds] at hfit
  rw [h.code hxs hds]
  refine through_template (fun hk hn => ⟨placing_of_le hk hn, ?_⟩) (fun e he => ?_)
    (fun m hm => ?_) (fun _ _ => rfl) hgo hfit
  · rw [List.getElem?_eq_getElem (by omega)]
    exact List.getElem_mem _
  · obtain ⟨i, hi, rfl⟩ := List.getElem_of_mem he
    exact ⟨xs.length + i, by omega, by omega, by simp [hi]⟩
  · rw [placing_of_lt (List.mem_range.1 hm)]
    exact ha _ (List.getElem_mem _)

end Plain

/-- What is written for a plain instruction reads its operands and assigns its results. -/
theorem Op.tidy_plain {env : Env} {o : Op} {p : Plain} (h : o.plain env = some p) : p.Tidy := by
  obtain ⟨pops, rfl⟩ | rfl | ⟨t, ht⟩ := plain_cases h
  · exact Plain.tidy_discard pops
  · exact Plain.tidy_select
  · exact ht.tidy

namespace Domain

theorem forall₂_cell {slots : List Nat} {results : List Unit} {τ : Nat → Bool}
    (hl : slots.length = results.length) (h : ∀ d ∈ slots, τ d = true) :
    List.Forall₂ (fun d v => τ d = assigned.cell v) slots results := by
  induction slots generalizing results with
  | nil =>
    rw [List.length_eq_zero_iff.1 hl.symm]
    exact .nil
  | cons d rest ih =>
    cases results with
    | nil => cases hl
    | cons v results =>
      exact .cons (h d List.mem_cons_self)
        (ih (Nat.succ.inj hl) fun d' hd => h d' (List.mem_cons_of_mem _ hd))

/-- The generated code reads and assigns what the domain says. -/
theorem lawful_assigned (env : Env) : assigned.Lawful env where
  exec_copy d ho :=
    (exec_slot (assigned_operand ho)).trans (congrArg some (marked_singleton _ d))
  exec_zero σ d type :=
    (exec_slot (by cases type <;> simp [Expr.Assigned, ValueType.zero, Expr.callHelper, Expr.helper,
      Expr.slots, Expr.operands, Expr.allOperands])).trans (congrArg some (marked_singleton σ d))
  ready_zero op ho _ := assigned_test ho op 0
  ready_test {_ _ _ _ t} ho _ _ := by
    cases t with
    | equals n | below n => exact assigned_test ho _ n
    | outside n =>
      exact (Expr.assigned_binary .or _ _).2 ⟨assigned_test ho .lt 0, assigned_test ho .ge n⟩
  tests_ne _ _ := trivial
  tests_eq _ _ := trivial
  selects _ _ hp := by
    cases hp with
    | chain hi => exact hi
    | outside => exact Nat.le_refl _
    | inside hi => exact Nat.le_of_lt hi
  performs := by
    intro σ o p args results operands slots hp _ ha hr ho hs _
    refine (Op.tidy_plain hp (ho.length_eq.trans ha) hs (assigned_operands ho)).mono fun τ hτ => ?_
    exact ⟨forall₂_cell (hs.trans hr.symm) hτ.1, hτ.2⟩

end Domain

end Moonstack
