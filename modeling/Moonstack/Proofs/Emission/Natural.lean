import Moonstack.Proofs.Code.Renaming
import Moonstack.Proofs.Emission.Tasks

/-!
# Operands in the code of tasks

The code of a task is made for any operands and any slots of results in the same way: what is put in
the place of its slots might as well have been there from the start (`Op.natural_task`). So slots can
be renamed before or after (`Plain.Natural.rename`), and the code is known once it is known for
slots as operands.
-/

namespace Moonstack

/-- What is put in the place of slots might as well have been there from the start. -/
def Plain.Natural (p : Plain) : Prop :=
  ∀ θ ρ xs ds, (∀ d ∈ ds, θ d = .slot (ρ d)) →
    p.code (xs.map (Operand.subst θ)) (ds.map ρ) = (p.code xs ds).map (Line.subst θ)

namespace Plain

variable {p : Plain} {θ : Nat → Operand} {ρ : Nat → Nat}

theorem Natural.rename (h : p.Natural) (ρ : Nat → Nat) (xs : List Operand) (ds : List Nat) :
    p.code (xs.map (Operand.rename ρ)) (ds.map ρ) = (p.code xs ds).map (Line.rename ρ) :=
  h _ ρ xs ds fun _ _ => rfl

theorem subst_assign {d : Nat} (hd : θ d = .slot (ρ d)) (e : Expr) :
    Line.stmt (.assign [.slot (ρ d)] (e.subst θ)) = (Line.stmt (.assign [.slot d] e)).subst θ := by
  simp only [Line.subst, Stmt.subst, Expr.substAll, Expr.mapAll, Expr.slot, Expr.mapOperands,
    Operand.subst, hd]

theorem subst_assigns {d : Nat} (hd : θ d = .slot (ρ d)) {e e' : Option Expr}
    (he : e' = e.map (Expr.subst θ)) :
    (e'.toList.map fun e => Line.stmt (.assign [.slot (ρ d)] e)) =
      (e.toList.map fun e => Line.stmt (.assign [.slot d] e)).map (Line.subst θ) := by
  subst he
  cases e with
  | none => rfl
  | some e => exact congrArg (fun l => [l]) (subst_assign hd e)

theorem subst_stmts (θ : Nat → Operand) (code : List Stmt) :
    (code.map (Stmt.subst θ)).map Line.stmt = (code.map Line.stmt).map (Line.subst θ) := by
  rw [List.map_map, List.map_map]
  rfl

theorem natural_unary {lower : Expr → Option Expr} (hp : unary lower = some p)
    (hs : ∀ θ x, lower (x.subst θ) = (lower x).map (Expr.subst θ)) : p.Natural := by
  obtain ⟨_, -, rfl⟩ := Option.map_eq_some_iff.1 hp
  rintro θ ρ (_ | ⟨x, _ | _⟩) (_ | ⟨d, _ | _⟩) h <;> try rfl
  exact subst_assigns (h d List.mem_cons_self) (hs θ (.operand x))

theorem natural_conversion (c : Conversion) : (conversion c).Natural :=
  conversion_cases (fun _ _ _ _ _ => rfl) fun _ hp => natural_unary hp fun θ => c.subst_lower θ

theorem natural_binary {lower : Expr → Expr → Option Expr} (hp : binary lower = some p)
    (hs : ∀ θ x y, lower (x.subst θ) (y.subst θ) = (lower x y).map (Expr.subst θ)) : p.Natural := by
  obtain ⟨_, -, rfl⟩ := Option.map_eq_some_iff.1 hp
  rintro θ ρ (_ | ⟨x, _ | ⟨y, _ | _⟩⟩) (_ | ⟨d, _ | _⟩) h <;> try rfl
  exact subst_assigns (h d List.mem_cons_self) (hs θ (.operand x) (.operand y))

theorem natural_value {e : Expr} (he : ∀ θ, e.subst θ = e) : (value e).Natural := by
  rintro θ ρ xs (_ | ⟨d, _ | _⟩) h <;> try rfl
  have := subst_assign (h d List.mem_cons_self) e
  rw [he] at this
  exact congrArg (fun l => [l]) this

theorem natural_select : select.Natural := by
  rintro θ ρ (_ | ⟨x, _ | ⟨y, _ | ⟨c, _ | _⟩⟩⟩) (_ | ⟨d, _ | _⟩) h <;> try rfl
  simp [select, Line.subst, Stmt.subst, Expr.substAll, Expr.mapAll, Expr.slot, Expr.subst,
    Expr.mapOperands, Operand.subst, h d]

theorem natural_load {type : ValueType} {width : Width} {signed : Bool} {handle : String}
    {offset : Nat} (hp : load type width signed handle offset = some p) : p.Natural := by
  obtain ⟨_, -, rfl⟩ := Option.map_eq_some_iff.1 hp
  rintro θ ρ (_ | ⟨x, _ | _⟩) (_ | ⟨d, _ | _⟩) h <;> try rfl
  have hd : (Expr.slot d).subst θ = .slot (ρ d) := congrArg Expr.operand (h d List.mem_cons_self)
  have hl := subst_lowerLoad θ (.slot d) type width signed (.name handle)
    (addressOf (.operand x) offset)
  rw [← subst_addressOf, hd] at hl
  refine (congrArg (List.map Line.stmt) ((congrArg (·.getD []) hl).trans ?_)).trans
    (subst_stmts θ _)
  cases lowerLoad (.slot d) type width signed (.name handle) (addressOf (.operand x) offset) <;> rfl

theorem natural_store {type : ValueType} {width : Width} {handle : String} {offset : Nat}
    (hp : store type width handle offset = some p) : p.Natural := by
  obtain ⟨_, -, rfl⟩ := Option.map_eq_some_iff.1 hp
  rintro θ ρ (_ | ⟨x, _ | ⟨y, _ | _⟩⟩) ds h <;> try rfl
  have hl := subst_lowerStore θ type width (.name handle) (addressOf (.operand x) offset)
    (.operand y)
  rw [← subst_addressOf] at hl
  refine (congrArg (List.map Line.stmt) ((congrArg Option.toList hl).trans ?_)).trans
    (subst_stmts θ _)
  cases lowerStore type width (.name handle) (addressOf (.operand x) offset) (.operand y) <;> rfl

theorem substAll_slots {ds : List Nat} (h : ∀ d ∈ ds, θ d = .slot (ρ d)) :
    Expr.substAll θ (ds.map .slot) = (ds.map ρ).map .slot := by
  rw [Expr.substAll_eq, List.map_map, List.map_map]
  exact List.map_congr_left fun d hd => congrArg Expr.operand (h d hd)

theorem natural_invoke {signature : Signature} {taken : Nat} {callee : List Operand → Expr}
    (hc : ∀ θ xs, callee (xs.map (Operand.subst θ)) = (callee xs).subst θ) :
    (invoke signature taken callee).Natural := by
  intro θ ρ xs ds h
  have hargs (xs : List Operand) : (xs.map (Operand.subst θ)).map Expr.operand =
      Expr.substAll θ (xs.map .operand) := by
    rw [Expr.substAll_eq, List.map_map, List.map_map]
    rfl
  simp only [invoke, List.isEmpty_map, ← List.map_drop, ← List.map_take, hc, ← substAll_slots h,
    hargs]
  split <;> rfl

theorem getD_subst (θ : Nat → Operand) (xs : List Operand) (n : Nat) :
    ((xs.map (Operand.subst θ))[n]?).getD .missing = ((xs[n]?).getD .missing).subst θ := by
  rw [List.getElem?_map]
  cases xs[n]? <;> rfl

theorem Odd.natural {env : Env} (h : p.Odd env) : p.Natural := by
  cases h with
  | halts pops pushes messages =>
    intro θ ρ xs ds _
    exact (List.map_map (f := haltLine) (g := Line.subst θ)).symm
  | stopped pops message =>
    intro θ ρ xs ds h
    simp only [Plain.stopped, List.map_cons, List.map_nil, Line.subst, Stmt.subst, substAll_slots h]
    rfl
  | jumps pops hm =>
    intro θ ρ xs _ _
    simp only [jumpCode, getD_subst]
    rfl
  | invoke signature message => exact natural_invoke fun _ _ => rfl

end Plain

/-- **The code of a plain instruction treats all slots alike.** -/
theorem Op.natural_plain {env : Env} {o : Op} {p : Plain} (h : o.plain env = some p) :
    p.Natural := by
  cases o with
  | nop | drop =>
    cases h
    exact fun _ _ _ _ _ => rfl
  | select =>
    cases h
    exact Plain.natural_select
  | call index =>
    simp only [plain, Option.bind_eq_bind, Option.bind_eq_some_iff] at h
    obtain ⟨callee, -, h⟩ := h
    split at h
    · cases h
    · cases h
      exact Plain.natural_invoke fun _ _ => rfl
  | callIndirect type table =>
    simp only [plain, Option.bind_eq_bind, Option.bind_eq_some_iff] at h
    obtain ⟨signature, -, handle, -, h⟩ := h
    cases h
    refine Plain.natural_invoke fun θ xs => ?_
    rw [Plain.getD_subst]
    rfl
  | globalGet index =>
    obtain ⟨_, -, rfl⟩ := Option.map_eq_some_iff.1 h
    exact Plain.natural_value fun _ => rfl
  | globalSet index =>
    obtain ⟨_, -, rfl⟩ := Option.map_eq_some_iff.1 h
    rintro θ ρ (_ | ⟨x, _ | _⟩) ds _ <;> rfl
  | load type width signed arg =>
    obtain ⟨handle, -, hp⟩ := Option.bind_eq_some_iff.1 h
    exact Plain.natural_load hp
  | store type width arg =>
    obtain ⟨handle, -, hp⟩ := Option.bind_eq_some_iff.1 h
    exact Plain.natural_store hp
  | memorySize index =>
    obtain ⟨handle, -, rfl⟩ := Option.map_eq_some_iff.1 h
    exact Plain.natural_value fun _ => rfl
  | memoryGrow index =>
    obtain ⟨handle, -, hp⟩ := Option.bind_eq_some_iff.1 h
    exact Plain.natural_unary hp fun _ _ => rfl
  | eqz type => exact Plain.natural_unary h fun θ => subst_lowerEqz θ type
  | compare type c => exact Plain.natural_binary h fun θ => c.subst_lower θ type
  | unary type u => exact Plain.natural_unary h fun θ => u.subst_lower θ type
  | binary type b => exact Plain.natural_binary h fun θ => b.subst_lower θ _ type
  | convert c =>
    cases h
    exact Plain.natural_conversion c
  | _ => cases h

/-- **The code of a task** depends on its operands and on the slots of its results only as far as it
puts them in. -/
theorem Op.natural_task {env : Env} {o : Op} {t : Task} (h : o.task env = some t) :
    t.toPlain.Natural := by
  obtain ⟨p, hp, -, rfl⟩ | ⟨-, ho⟩ := task_cases h
  · exact natural_plain hp
  · exact (odd_code ho).natural

end Moonstack
