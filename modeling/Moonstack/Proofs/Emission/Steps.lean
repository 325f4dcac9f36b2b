import Moonstack.Proofs.Emission.Tasks
import Moonstack.Proofs.Flow.Scopes
import Moonstack.Proofs.Lowering.Tidy

/-!
# The lines of tasks

Tasks are straight-line code: each line is a statement that is no jump, or chooses one of two such
statements. The lines are clear if the operands are proper and the names of functions are neutral
(`Op.steps_task`).
-/

namespace Moonstack

/-- Does the statement store no record of slots? -/
def Stmt.fresh : Stmt → Bool
  | capture _ _ _ => false
  | assign _ _ | run _ | goto _ | ret _ => true

/-- Does the line store no record of slots, and declare none? -/
def Line.fresh : Line → Bool
  | stmt s | guard _ s | arm _ _ s => s.fresh
  | choice _ s t => s.fresh && t.fresh
  | declare _ => false
  | _ => true

/-- Does the statement neither jump nor store a record of slots? -/
def Stmt.stays : Stmt → Bool
  | goto _ | capture _ _ _ => false
  | assign _ _ | run _ | ret _ => true

/-- A line of an instruction that opens and closes nothing, jumps nowhere and stores no record. Under
a condition it is clear. -/
structure Line.Plain (ok : Prop) (l : Line) : Prop where
  still : ∀ n outer, l.scope n outer = some outer
  quiet : l.targets = []
  fresh : l.fresh = true
  clear : ok → l.Clear

/-- Names that functions are called by are neutral texts. -/
def Registry.Tidy (r : Registry) : Prop :=
  ∀ index entry, r.function? index = some entry → Neutral entry.id

section

variable {ok : Prop}

theorem Line.plain_stmt {s : Stmt} (hs : s.stays = true) (h : ok → s.Tidy) :
    (Line.stmt s).Plain ok where
  still _ _ := rfl
  quiet := by cases s <;> first | rfl | cases hs
  fresh := by cases s <;> first | rfl | cases hs
  clear hok := .inl (h hok)

theorem Line.plain_assign {slot : Nat} {value : Expr}
    (h : ok → value.Tidy ∨ value = .paren (.negate (.operand .missing))) :
    (Line.stmt (.assign [.slot slot] value)).Plain ok where
  still _ _ := rfl
  quiet := rfl
  fresh := rfl
  clear hok := by
    obtain h | rfl := h hok
    · exact .inl ⟨⟨Expr.tidy_slot slot, trivial⟩, h⟩
    · exact .inr ⟨slot, rfl⟩

theorem Line.plain_label (l : Label) : (Line.label l).Plain ok :=
  ⟨fun _ _ => rfl, rfl, rfl, fun _ => .inl trivial⟩

theorem Line.plain_comment {text : String} (h : ok → OneLine text) : (Line.comment text).Plain ok :=
  ⟨fun _ _ => rfl, rfl, rfl, fun hok => .inl (h hok)⟩

end

namespace Emit

theorem tidy_memoryHandle (index : Nat) : (Expr.name (memoryHandle index)).Tidy :=
  Neutral.append (s := "mem_") (.ofList (by decide)) (firm_toString index).neutral

theorem tidy_memory? {registry : Registry} {index : Nat} {handle : String}
    (h : registry.memory? index = some handle) : (Expr.name handle).Tidy := by
  unfold Registry.memory? at h
  split at h
  · cases h
    exact tidy_memoryHandle index
  · cases h

theorem tidy_table? {registry : Registry} {table : Nat} {handle : TableHandle}
    (h : registry.table? table = some handle) :
    (Expr.name handle.functions).Tidy ∧ (Expr.name handle.offset).Tidy := by
  have hnumbered : ∀ s : String, Neutral s → Neutral (s ++ toString table ++ "__") :=
    fun s hs => (hs.append (firm_toString table).neutral).append (.ofList (by decide))
  unfold Registry.table? at h
  split at h
  · cases h
    exact ⟨hnumbered "__TABLE_FUNCS_" (.ofList (by decide)),
      hnumbered "__TABLE_OFFSET_" (.ofList (by decide))⟩
  · cases h

theorem tidyAll_operands {os : List Operand} (h : ∀ o ∈ os, o.Proper) :
    Expr.TidyAll (os.map .operand) := by
  rw [Expr.tidyAll_iff]
  intro e he
  obtain ⟨o, ho, rfl⟩ := List.mem_map.1 he
  exact Expr.tidy_operand (h o ho)

theorem tidyAll_slots (slots : List Nat) : Expr.TidyAll (slots.map .slot) := by
  rw [Expr.tidyAll_iff]
  intro e he
  obtain ⟨slot, -, rfl⟩ := List.mem_map.1 he
  exact Expr.tidy_slot slot

theorem stays_lowerLoad (dest : Expr) (type : ValueType) (width : Width) (signed : Bool)
    (handle address : Expr) : ∀ statements ∈ lowerLoad dest type width signed handle address,
      ∀ s ∈ statements, s.stays = true := by
  have hnarrow : ∀ statements ∈ loadNarrow dest handle address width signed,
      ∀ s ∈ statements, s.stays = true := by
    intro statements hs s hmem
    obtain ⟨h, -, rfl⟩ := Option.map_eq_some_iff.1 hs
    obtain rfl | hmem := List.mem_cons.1 hmem
    · rfl
    · split at hmem
      · obtain rfl := List.mem_singleton.1 hmem
        rfl
      · cases hmem
  unfold lowerLoad
  split
  · exact hnarrow
  · simp [Stmt.stays]
  · intro statements hs s hmem
    obtain ⟨front, hfront, rfl⟩ := Option.map_eq_some_iff.1 hs
    obtain hmem | hmem := List.mem_append.1 hmem
    · exact hnarrow front hfront s hmem
    · obtain rfl := List.mem_singleton.1 hmem
      rfl
  · simp [Stmt.stays]
  · simp [Stmt.stays]
  · simp
  · simp

theorem stays_lowerStore (type : ValueType) (width : Width) (handle address value : Expr) :
    ∀ s ∈ lowerStore type width handle address value, s.stays = true := by
  unfold lowerStore
  split <;> simp [Stmt.stays]

theorem proper_getD {os : List Operand} (h : ∀ o ∈ os, o.Proper) (i : Nat) :
    ((os[i]?).getD .missing).Proper := by
  cases ho : os[i]? with
  | none => trivial
  | some o => exact h o (List.mem_of_getElem? ho)

end Emit

/-- A line that is a statement, or chooses one of two. -/
def Line.isStep : Line → Bool
  | stmt _ | choice _ _ _ => true
  | _ => false

/-- A line of straight-line code. -/
structure Line.Step (ok : Prop) (l : Line) : Prop where
  plain : l.Plain ok
  step : l.isStep = true

open Emit

section

variable {ok : Prop}

theorem Line.step_stmt {s : Stmt} (hs : s.stays = true) (h : ok → s.Tidy) : (Line.stmt s).Step ok :=
  ⟨plain_stmt hs h, rfl⟩

theorem Line.step_assign {slot : Nat} {value : Expr}
    (h : ok → value.Tidy ∨ value = .paren (.negate (.operand .missing))) :
    (Line.stmt (.assign [.slot slot] value)).Step ok :=
  ⟨plain_assign h, rfl⟩

theorem Line.step_haltLine (message : String) : (haltLine message).Step ok :=
  step_stmt rfl fun _ => Expr.tidy_error _

variable {env : Env} {xs : List Operand} {ds : List Nat} {p : Plain}

namespace Plain

theorem steps_unary {lower : Expr → Option Expr} (hp : unary lower = some p)
    (h : ok → ∀ x ∈ xs, ∀ e ∈ lower (.operand x),
      e.Tidy ∨ e = .paren (.negate (.operand .missing))) : ∀ l ∈ p.code xs ds, l.Step ok := by
  obtain ⟨_, -, rfl⟩ := Option.map_eq_some_iff.1 hp
  intro l hl
  simp only at hl
  split at hl
  · obtain ⟨e, he, rfl⟩ := List.mem_map.1 hl
    exact Line.step_assign fun hok => h hok _ (by simp) e (Option.mem_toList.1 he)
  · cases hl

theorem steps_conversion {c : Conversion} (hxs : ok → ∀ x ∈ xs, x.Proper) :
    ∀ l ∈ (conversion c).code xs ds, l.Step ok := by
  refine conversion_cases (fun _ hl => absurd hl List.not_mem_nil) fun p hp => ?_
  exact steps_unary hp fun hok x hx e he =>
    .inl (c.tidy_lower (Expr.tidy_operand (hxs hok x hx)) e he)

theorem steps_binary {lower : Expr → Expr → Option Expr} (hp : binary lower = some p)
    (h : ok → ∀ x ∈ xs, ∀ y ∈ xs, ∀ e ∈ lower (.operand x) (.operand y), e.Tidy) :
    ∀ l ∈ p.code xs ds, l.Step ok := by
  obtain ⟨_, -, rfl⟩ := Option.map_eq_some_iff.1 hp
  intro l hl
  simp only at hl
  split at hl
  · obtain ⟨e, he, rfl⟩ := List.mem_map.1 hl
    exact Line.step_assign fun hok =>
      .inl (h hok _ (by simp) _ (by simp) e (Option.mem_toList.1 he))
  · cases hl

theorem steps_value {e : Expr} (h : ok → e.Tidy) : ∀ l ∈ (value e).code xs ds, l.Step ok := by
  intro l hl
  simp only [value] at hl
  split at hl
  · obtain rfl := List.mem_singleton.1 hl
    exact Line.step_assign fun hok => .inl (h hok)
  · cases hl

theorem steps_select (hxs : ok → ∀ x ∈ xs, x.Proper) : ∀ l ∈ select.code xs ds, l.Step ok := by
  intro l hl
  simp only [select] at hl
  split at hl
  · rename_i x y c d
    obtain rfl := List.mem_singleton.1 hl
    have htidy (hok : ok) (z : Operand) (hz : z ∈ [x, y, c]) := Expr.tidy_operand (hxs hok z hz)
    refine ⟨⟨fun _ _ => rfl, rfl, rfl, fun hok => .inl ?_⟩, rfl⟩
    exact ⟨⟨htidy hok c (by simp), trivial⟩,
      ⟨⟨Expr.tidy_slot d, trivial⟩, htidy hok x (by simp)⟩,
      ⟨⟨Expr.tidy_slot d, trivial⟩, htidy hok y (by simp)⟩⟩
  · cases hl

theorem steps_load {type : ValueType} {width : Width} {signed : Bool} {handle : String}
    {offset : Nat} (hp : load type width signed handle offset = some p)
    (hh : (Expr.name handle).Tidy) (hxs : ok → ∀ x ∈ xs, x.Proper) :
    ∀ l ∈ p.code xs ds, l.Step ok := by
  obtain ⟨_, -, rfl⟩ := Option.map_eq_some_iff.1 hp
  intro l hl
  simp only at hl
  split at hl
  · rename_i x d
    cases he : lowerLoad (.slot d) type width signed (.name handle)
        (addressOf (.operand x) offset) with
    | none => simp [he] at hl
    | some statements =>
      rw [he, Option.getD_some] at hl
      obtain ⟨s, hs, rfl⟩ := List.mem_map.1 hl
      refine Line.step_stmt (stays_lowerLoad _ _ _ _ _ _ statements he s hs) fun hok => ?_
      exact tidy_lowerLoad (Expr.tidy_slot d) hh
        (tidy_addressOf (Expr.tidy_operand (hxs hok x (by simp))) _) _ _ _ statements he s hs
  · cases hl

theorem steps_store {type : ValueType} {width : Width} {handle : String} {offset : Nat}
    (hp : store type width handle offset = some p) (hh : (Expr.name handle).Tidy)
    (hxs : ok → ∀ x ∈ xs, x.Proper) : ∀ l ∈ p.code xs ds, l.Step ok := by
  obtain ⟨_, -, rfl⟩ := Option.map_eq_some_iff.1 hp
  intro l hl
  simp only at hl
  split at hl
  · obtain ⟨s, hs, rfl⟩ := List.mem_map.1 hl
    rw [Option.mem_toList] at hs
    refine Line.step_stmt (stays_lowerStore _ _ _ _ _ s hs) fun hok => ?_
    exact tidy_lowerStore hh (tidy_addressOf (Expr.tidy_operand (hxs hok _ (by simp))) _)
      (Expr.tidy_operand (hxs hok _ (by simp))) _ _ s hs
  · cases hl

theorem steps_invoke {signature : Signature} {taken : Nat} {callee : List Operand → Expr}
    (hc : ok → (callee (xs.drop signature.params.length)).Tidy) (hxs : ok → ∀ x ∈ xs, x.Proper) :
    ∀ l ∈ (invoke signature taken callee).code xs ds, l.Step ok := by
  have hcall (hok : ok) : (Expr.call (callee (xs.drop signature.params.length))
      ((xs.take signature.params.length).map .operand)).Tidy :=
    ⟨hc hok, tidyAll_operands fun x hx => hxs hok x (List.mem_of_mem_take hx)⟩
  intro l hl
  simp only [invoke] at hl
  split at hl
  · obtain rfl := List.mem_singleton.1 hl
    exact Line.step_stmt rfl hcall
  · obtain rfl := List.mem_singleton.1 hl
    exact Line.step_stmt rfl fun hok => ⟨tidyAll_slots _, hcall hok⟩

theorem Odd.steps (h : p.Odd env) (hxs : ok → ∀ x ∈ xs, x.Proper) :
    ∀ l ∈ p.code xs ds, l.Step ok := by
  cases h with
  | halts pops pushes messages =>
    intro l hl
    obtain ⟨message, -, rfl⟩ := List.mem_map.1 hl
    exact Line.step_haltLine message
  | stopped pops message =>
    intro l hl
    obtain rfl := List.mem_singleton.1 hl
    exact Line.step_stmt rfl fun _ => ⟨tidyAll_slots _, Expr.tidy_error _⟩
  | jumps pops hm =>
    have hstate (hok : ok) : (jumpPlace _ ((xs[0]?).getD .missing)).Tidy :=
      ⟨⟨Expr.tidy_helper _, tidy_memory? hm⟩, Expr.tidy_operand (proper_getD (hxs hok) 0)⟩
    have hvalue (hok : ok) := Expr.tidy_operand (proper_getD (hxs hok) 1)
    intro l hl
    simp only [jumpCode, List.mem_cons, List.not_mem_nil, or_false] at hl
    obtain rfl | rfl := hl
    · exact Line.step_stmt rfl fun hok => ⟨⟨⟨hstate hok, by decide⟩, trivial⟩,
        ⟨⟨hvalue hok, trivial⟩, trivial⟩, hvalue hok⟩
    · exact Line.step_stmt rfl fun hok => ⟨.ofList (by decide), hstate hok, trivial⟩
  | invoke signature message => exact steps_invoke (fun _ => Expr.tidy_error _) hxs

end Plain

/-- The lines of a plain instruction are steps. -/
theorem Op.steps_plain {o : Op} (h : o.plain env = some p) (henv : ok → env.registry.Tidy)
    (hxs : ok → ∀ x ∈ xs, x.Proper) : ∀ l ∈ p.code xs ds, l.Step ok := by
  have htidy (hok : ok) (x : Operand) (hx : x ∈ xs) := Expr.tidy_operand (hxs hok x hx)
  cases o with
  | nop | drop =>
    cases h
    exact fun _ hl => absurd hl List.not_mem_nil
  | select =>
    cases h
    exact Plain.steps_select hxs
  | call index =>
    simp only [plain, Option.bind_eq_bind, Option.bind_eq_some_iff] at h
    obtain ⟨callee, hc, h⟩ := h
    split at h
    · cases h
    · cases h
      exact Plain.steps_invoke (fun hok => henv hok index callee hc) hxs
  | callIndirect type table =>
    simp only [plain, Option.bind_eq_bind, Option.bind_eq_some_iff] at h
    obtain ⟨signature, -, handle, ht, h⟩ := h
    cases h
    obtain ⟨hf, ho⟩ := tidy_table? ht
    exact Plain.steps_invoke (fun hok => ⟨hf, ho, Expr.tidy_operand (proper_getD (fun x hx =>
      hxs hok x (List.mem_of_mem_drop hx)) 0)⟩) hxs
  | globalGet index =>
    obtain ⟨_, -, rfl⟩ := Option.map_eq_some_iff.1 h
    exact Plain.steps_value fun _ => tidy_globalPlace _
  | globalSet index =>
    obtain ⟨_, -, rfl⟩ := Option.map_eq_some_iff.1 h
    intro l hl
    simp only at hl
    split at hl
    · obtain rfl := List.mem_singleton.1 hl
      exact Line.step_stmt rfl fun hok => ⟨⟨tidy_globalPlace _, trivial⟩, htidy hok _ (by simp)⟩
    · cases hl
  | load type width signed arg =>
    obtain ⟨handle, hm, hp⟩ := Option.bind_eq_some_iff.1 h
    exact Plain.steps_load hp (tidy_memory? hm) hxs
  | store type width arg =>
    obtain ⟨handle, hm, hp⟩ := Option.bind_eq_some_iff.1 h
    exact Plain.steps_store hp (tidy_memory? hm) hxs
  | memorySize index =>
    obtain ⟨handle, hm, rfl⟩ := Option.map_eq_some_iff.1 h
    exact Plain.steps_value fun _ => tidy_memorySize (tidy_memory? hm)
  | memoryGrow index =>
    obtain ⟨handle, hm, hp⟩ := Option.bind_eq_some_iff.1 h
    refine Plain.steps_unary hp fun hok x hx e he => ?_
    cases he
    exact .inl (tidy_memoryGrow (tidy_memory? hm) (htidy hok x hx))
  | eqz type =>
    exact Plain.steps_unary h fun hok x hx e he => .inl (tidy_lowerEqz type (htidy hok x hx) e he)
  | compare type c =>
    exact Plain.steps_binary h fun hok x hx y hy =>
      c.tidy_lower (htidy hok x hx) (htidy hok y hy) type
  | unary type u =>
    exact Plain.steps_unary h fun hok x hx => u.tidy_lower_operand type (hxs hok x hx)
  | binary type b =>
    exact Plain.steps_binary h fun hok x hx y hy =>
      b.tidy_lower (htidy hok x hx) (htidy hok y hy) _ type
  | convert c =>
    cases h
    exact Plain.steps_conversion hxs
  | _ => cases h

/-- **The lines of a task are straight-line code.** -/
theorem Op.steps_task {o : Op} {t : Task} (h : o.task env = some t) (henv : ok → env.registry.Tidy)
    (hxs : ok → ∀ x ∈ xs, x.Proper) : ∀ l ∈ t.code xs ds, l.Step ok := by
  obtain ⟨p, hp, -, rfl⟩ | ⟨-, ho⟩ := task_cases h
  · exact steps_plain hp henv hxs
  · exact (odd_code ho).steps hxs

/-- The only name in the warnings of a task is that of the instruction, and its literals are
proper. -/
theorem Op.texts_task {o : Op} {t : Task} (h : o.task env = some t) :
    (∀ name, .unsupported name ∈ t.notices ∨ .unsupported name ∈ t.warnings → name = o.mnemonic) ∧
      ∀ l ∈ t.literals, l.Proper := by
  obtain ⟨p, -, -, rfl⟩ | ⟨-, ho⟩ := task_cases h
  · simp [Plain.task]
  have hlacks (index : Nat) (name : String) : .unsupported name ∉ env.lacks index := by
    unfold Env.lacks
    split <;> simp
  have hjumpless (name : String) : .unsupported name ∉ env.jumpless := by
    unfold Env.jumpless
    split <;> simp
  cases o with
  | call index =>
    simp only [odd] at ho
    split at ho
    · cases ho
      simp [Plain.task]
    · split at ho
      · split at ho <;> cases ho
        simp [Plain.task, hjumpless]
      · cases ho
        simp [Plain.task, hjumpless, Literal.Proper]
  | callIndirect type table =>
    simp only [odd] at ho
    split at ho <;>
    · cases ho
      simp [Plain.task]
  | unreachable | globalGet | globalSet | const | unsupported =>
    cases ho
    simp [Plain.task, mnemonic, Literal.Proper]
  | load | store | memorySize | memoryGrow | eqz | unary | compare | binary =>
    cases ho
    simp [Plain.task, Task.missing, hlacks]
  | _ => cases ho

end

end Moonstack
