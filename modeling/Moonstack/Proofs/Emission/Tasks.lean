import Moonstack.Proofs.Emission.Writes
import Moonstack.Function.Body

/-!
# What a task can be

Whether an operation can be spelled does not depend on its operands, so the code of a plain
instruction is what `Plain.code_unary` and `Plain.code_binary` say. The code of what cannot be written
has one of four forms (`Plain.Odd`). The instructions that are no tasks are the cases of `Op.Special`.
-/

namespace Moonstack

variable {o : Op} {lower : Expr → Option Expr}

/-! ## Spellings do not depend on the operands -/

theorem lowerEqz_isSome (type : ValueType) (x y : Expr) :
    (lowerEqz type x).isSome = (lowerEqz type y).isSome := by
  cases type <;> rfl

theorem UnaryOp.lower_isSome (type : ValueType) (op : UnaryOp) (x y : Expr) :
    (op.lower type x).isSome = (op.lower type y).isSome := by
  cases type <;> cases op <;> rfl

theorem Comparison.lower_isSome (type : ValueType) (op : Comparison) (x y x' y' : Expr) :
    (op.lower type x y).isSome = (op.lower type x' y').isSome := by
  cases type <;> cases op <;> rfl

theorem BinaryOp.lower_isSome (exact : Bool) (type : ValueType) (op : BinaryOp) (x y x' y' : Expr) :
    (op.lower exact type x y).isSome = (op.lower exact type x' y').isSome := by
  cases type <;> cases op <;> cases exact <;> rfl

theorem Conversion.lower_isSome (op : Conversion) (x y : Expr) :
    (op.lower x).isSome = (op.lower y).isSome := by
  cases op with
  | truncS target source | truncU target source => cases target <;> rfl
  | convertS target source | convertU target source => cases source <;> rfl
  | reinterpret target => cases target <;> rfl
  | _ => rfl

theorem lowerLoad_isSome (d d' memory x y : Expr) (type : ValueType) (width : Width)
    (signed : Bool) : (lowerLoad d type width signed memory x).isSome =
      (lowerLoad d' type width signed memory y).isSome := by
  cases type <;> cases width <;> rfl

theorem lowerStore_isSome (type : ValueType) (width : Width) (memory x y x' y' : Expr) :
    (lowerStore type width memory x y).isSome = (lowerStore type width memory x' y').isSome := by
  cases type <;> cases width <;> rfl

/-! ## Code of operations -/

namespace Plain

variable {p : Plain}

/-- An operation on one operand assigns its spelling to the result. -/
theorem code_unary (hp : unary lower = some p) (hs : ∀ x y, (lower x).isSome = (lower y).isSome)
    (x : Operand) (d : Nat) :
    ∃ e, lower (.operand x) = some e ∧ p.code [x] [d] = [.stmt (.assign [.slot d] e)] := by
  obtain ⟨e₀, he₀, rfl⟩ := Option.map_eq_some_iff.1 hp
  obtain ⟨e, he⟩ : ∃ e, lower (.operand x) = some e :=
    Option.isSome_iff_exists.1 (by rw [hs _ (.number 0), he₀]; rfl)
  refine ⟨e, he, ?_⟩
  simp only [he, Option.toList_some, List.map_cons, List.map_nil]

/-- An operation on two operands assigns its spelling to the result. -/
theorem code_binary {lower : Expr → Expr → Option Expr} (hp : binary lower = some p)
    (hs : ∀ x y x' y', (lower x y).isSome = (lower x' y').isSome) (x y : Operand) (d : Nat) :
    ∃ e, lower (.operand x) (.operand y) = some e ∧
      p.code [x, y] [d] = [.stmt (.assign [.slot d] e)] := by
  obtain ⟨e₀, he₀, rfl⟩ := Option.map_eq_some_iff.1 hp
  obtain ⟨e, he⟩ : ∃ e, lower (.operand x) (.operand y) = some e :=
    Option.isSome_iff_exists.1 (by rw [hs _ _ (.number 0) (.number 0), he₀]; rfl)
  refine ⟨e, he, ?_⟩
  simp only [he, Option.toList_some, List.map_cons, List.map_nil]

theorem size_unary (hp : unary lower = some p) : p.pops = 1 ∧ p.pushes = 1 := by
  obtain ⟨e, -, rfl⟩ := Option.map_eq_some_iff.1 hp
  exact ⟨rfl, rfl⟩

theorem unary_eq_none (hs : ∀ x y, (lower x).isSome = (lower y).isSome) (x : Expr) :
    unary lower = none ↔ lower x = none := by
  rw [unary, Option.map_eq_none_iff, ← Option.not_isSome_iff_eq_none, hs _ x,
    Option.not_isSome_iff_eq_none]

/-- A conversion is an operation on one operand, or does nothing. -/
@[elab_as_elim]
theorem conversion_cases {c : Conversion} {P : Plain → Prop} (hdiscard : P (discard 0))
    (hunary : ∀ p, unary c.lower = some p → P p) : P (conversion c) := by
  unfold conversion
  cases hp : unary c.lower with
  | none => exact hdiscard
  | some p => exact hunary p hp

theorem size_binary {lower : Expr → Expr → Option Expr} (hp : binary lower = some p) :
    p.pops = 2 ∧ p.pushes = 1 := by
  obtain ⟨e, -, rfl⟩ := Option.map_eq_some_iff.1 hp
  exact ⟨rfl, rfl⟩

end Plain

/-! ## Tasks -/

variable {t : Task}

/-- Does the instruction save the place for a long jump? -/
def Op.savesPlace (env : Env) : Op → Bool
  | call index => (env.registry.function? index).any fun callee => Emit.isSetjmp callee.name
  | _ => false

/-- What the code of the instructions looks like that are tasks and no plain ones. -/
inductive Plain.Odd (env : Env) : Plain → Prop where
  | halts (pops pushes : Nat) (messages : List String) : Odd env (.halts pops pushes messages)
  | stopped (pops : Nat) (message : String) : Odd env (.stopped pops message)
  | jumps (pops : Nat) {handle : String} : env.registry.memory? 0 = some handle →
    Odd env ⟨pops, 0, fun xs _ => jumpCode handle xs⟩
  | invoke (signature : Signature) (message : String) :
    Odd env (.invoke signature 1 fun _ => .error message)

/-- What cannot be written has one of the forms. -/
theorem Op.odd_code {env : Env} (h : o.odd env = some t) : t.toPlain.Odd env := by
  cases o with
  | unreachable | store | unsupported =>
    cases h
    exact .halts _ _ _
  | globalGet | globalSet | const =>
    cases h
    exact .halts _ _ []
  | load | memorySize | memoryGrow | eqz | unary | compare | binary =>
    cases h
    exact .stopped _ _
  | call index =>
    simp only [odd] at h
    split at h
    · cases h
      exact .halts _ _ _
    · split at h
      · split at h
        · cases h
        · cases h
          exact .halts _ _ _
      · cases h
        simp only [Plain.task, Plain.longjmp]
        split
        · exact .halts _ _ _
        · rename_i hm
          exact .jumps _ hm
  | callIndirect type table =>
    simp only [odd] at h
    split at h
    · cases h
      exact .halts _ _ _
    · cases h
      exact .invoke _ _
  | _ => cases h

def Frame.warnAll (f : Frame) (warnings : List Warning) : Frame :=
  warnings.foldl (fun f w => f.warn w.message) f

/-- The instructions that are no tasks. -/
inductive Op.Special (env : Env) : Op → Prop where
  | br (depth : Nat) : Special env (.br depth)
  | brIf (depth : Nat) : Special env (.brIf depth)
  | brTable (targets : List Nat) (fallback : Nat) : Special env (.brTable targets fallback)
  | ret : Special env .ret
  | localGet (index : Nat) : Special env (.localGet index)
  | localSet (index : Nat) : Special env (.localSet index)
  | localTee (index : Nat) : Special env (.localTee index)
  | convert (c : Conversion) : Special env (.convert c)
  | setjmp {index : Nat} {handle : String} : (Op.call index).savesPlace env = true →
    env.registry.memory? 0 = some handle → Special env (.call index)

theorem Op.task_of_savesPlace {env : Env} {o : Op} {handle : String} (h : o.savesPlace env = true)
    (hm : env.registry.memory? 0 = some handle) : o.task env = none := by
  cases o with
  | call index =>
    obtain ⟨callee, hc, hs⟩ := (Option.any_eq_true _ _).1 h
    simp [task, plain, odd, hc, hs, hm]
  | _ => cases h

theorem Op.task_eq {env : Env} (hc : ∀ c, o ≠ .convert c) :
    o.task env = (o.plain env).elim (o.odd env) fun p => some p.task := by
  cases o <;> first | rfl | exact absurd rfl (hc _)

theorem Op.task_of_plain {env : Env} {p : Plain} (h : o.plain env = some p)
    (hc : ∀ c, o ≠ .convert c) : o.task env = some p.task := by
  rw [task_eq hc, h]
  rfl

theorem Op.task_cases {env : Env} (h : o.task env = some t) :
    (∃ p, o.plain env = some p ∧ (∀ c, o ≠ .convert c) ∧ t = p.task) ∨
      o.plain env = none ∧ o.odd env = some t := by
  have hc : ∀ c, o ≠ .convert c := by
    rintro c rfl
    cases h
  rw [task_eq hc] at h
  cases hp : o.plain env with
  | some p =>
    rw [hp] at h
    exact .inl ⟨p, rfl, hc, (Option.some.inj h).symm⟩
  | none =>
    rw [hp] at h
    exact .inr ⟨rfl, h⟩

/-- What is no task is one of the special cases. -/
theorem Op.special_of_task {env : Env} (h : o.task env = none) : o.Special env := by
  have hnone {p : Option Plain} {t : Task} : p.elim (some t) (fun p => some p.task) ≠ none := by
    cases p <;> simp
  cases o with
  | br depth => exact .br depth
  | brIf depth => exact .brIf depth
  | brTable targets fallback => exact .brTable targets fallback
  | ret => exact .ret
  | localGet index => exact .localGet index
  | localSet index => exact .localSet index
  | localTee index => exact .localTee index
  | convert c => exact .convert c
  | nop | drop | select | unreachable | const | unsupported => cases h
  | call index =>
    cases hc : env.registry.function? index with
    | none => simp [task, plain, odd, hc] at h
    | some callee =>
      cases hs : Emit.isSetjmp callee.name with
      | false =>
        simp only [task, odd, hc, hs, Bool.false_eq_true, if_false] at h
        exact absurd h hnone
      | true =>
        cases hm : env.registry.memory? 0 with
        | none => simp [task, plain, odd, hc, hs, hm] at h
        | some handle => exact .setjmp (by rw [savesPlace, hc, Option.any_some, hs]) hm
  | callIndirect type table =>
    cases hs : env.registry.types[type]? <;> simp only [task, odd, hs] at h <;>
      exact absurd h hnone
  | _ => exact absurd h hnone

namespace Emit

variable {env : Env}

/-- **Writing an instruction is performing its task.** -/
theorem op_eq_perform (h : o.task env = some t) (offset : Nat) : op env offset o = perform t := by
  rw [op, h]

theorem op_eq_savePlace {index : Nat} {handle : String}
    (hs : (Op.call index).savesPlace env = true) (hm : env.registry.memory? 0 = some handle)
    (offset : Nat) : op env offset (.call index) = savePlace handle offset := by
  rw [op, Op.task_of_savesPlace hs hm]
  simp only [special, hm]
  rfl

end Emit

end Moonstack
