import Moonstack.Proofs.Frame.Total

/-!
# Later frames

What no frame operation takes back. `Frame.Later f g` says that `g` may stand after `f` in the
writing of one function:

* the clock does not run backwards, and signature, types, lifetimes and strategy stay;
* a register keeps its slot, its local and the end of its lifetime;
* a local stays bound to its register as long as the lifetime of that register goes on.

It is a preorder (`Later.refl`, `Later.trans`), and every operation respects it.
-/

namespace Moonstack.Frame

variable {f : Frame} {id : RegisterId}

/-- `g` may stand after `f` in the writing of a function. -/
structure Later (f g : Frame) : Prop where
  clock : f.clock ≤ g.clock
  lifetimes : g.lifetimes = f.lifetimes
  localTypes : g.localTypes = f.localTypes
  signature : g.signature = f.signature
  paramCount : g.paramCount = f.paramCount
  strategy : g.registers.strategy = f.registers.strategy
  size : g.locals.size = f.locals.size
  register : ∀ {id r}, f.registers.get? id = some r → ∃ r', g.registers.get? id = some r' ∧
    r'.slot = r.slot ∧ r'.boundTo = r.boundTo ∧ r'.lastRef = r.lastRef
  bound : ∀ {l id r last}, f.locals[l]? = some (some id) → f.registers.get? id = some r →
    r.boundTo = some l → r.lastRef = some last → g.clock < last → g.locals[l]? = some (some id)

namespace Later

theorem refl (f : Frame) : f.Later f where
  clock := Nat.le_refl _
  lifetimes := rfl
  localTypes := rfl
  signature := rfl
  paramCount := rfl
  strategy := rfl
  size := rfl
  register h := ⟨_, h, rfl, rfl, rfl⟩
  bound h _ _ _ _ := h

theorem trans {g h : Frame} (hfg : f.Later g) (hgh : g.Later h) : f.Later h where
  clock := Nat.le_trans hfg.clock hgh.clock
  lifetimes := hgh.lifetimes.trans hfg.lifetimes
  localTypes := hgh.localTypes.trans hfg.localTypes
  signature := hgh.signature.trans hfg.signature
  paramCount := hgh.paramCount.trans hfg.paramCount
  strategy := hgh.strategy.trans hfg.strategy
  size := hgh.size.trans hfg.size
  register hr := by
    obtain ⟨r₁, h₁, s₁, b₁, l₁⟩ := hfg.register hr
    obtain ⟨r₂, h₂, s₂, b₂, l₂⟩ := hgh.register h₁
    exact ⟨r₂, h₂, s₂.trans s₁, b₂.trans b₁, l₂.trans l₁⟩
  bound hl hr hb hlast hc := by
    obtain ⟨r₁, h₁, -, b₁, l₁⟩ := hfg.register hr
    exact hgh.bound (hfg.bound hl hr hb hlast (Nat.lt_of_le_of_lt hgh.clock hc)) h₁ (b₁.trans hb)
      (l₁.trans hlast) hc

/-- A change that leaves bindings, clock and what is fixed alone, and of the registers changes at
most references and liveness, leads to a later frame. -/
theorem of_registers {g : Frame} (hc : g.clock = f.clock) (hlt : g.lifetimes = f.lifetimes)
    (ht : g.localTypes = f.localTypes) (hs : g.signature = f.signature)
    (hp : g.paramCount = f.paramCount) (hst : g.registers.strategy = f.registers.strategy)
    (hl : g.locals = f.locals)
    (hr : ∀ {id r}, f.registers.get? id = some r → ∃ r', g.registers.get? id = some r' ∧
      r'.slot = r.slot ∧ r'.boundTo = r.boundTo ∧ r'.lastRef = r.lastRef) : f.Later g where
  clock := Nat.le_of_eq hc.symm
  lifetimes := hlt
  localTypes := ht
  signature := hs
  paramCount := hp
  strategy := hst
  size := by rw [hl]
  register := hr
  bound h _ _ _ _ := by rw [hl]; exact h

theorem slotOf {g : Frame} (h : f.Later g) {r : Register} (hr : f.registers.get? id = some r) :
    g.registers.slotOf id = f.registers.slotOf id := by
  obtain ⟨r', hr', hs, -, -⟩ := h.register hr
  simp only [Registers.slotOf, hr, hr', Option.map_some, Option.getD_some, hs]

end Later

variable (f)

theorem noteIf_eq (b : Bool) (text : String) :
    f.noteIf b text = { f with notes := if b then f.notes.push text else f.notes } := by
  cases b <;> rfl

theorem later_noteIf (b : Bool) (text : String) : f.Later (f.noteIf b text) := by
  rw [noteIf_eq]
  exact .of_registers rfl rfl rfl rfl rfl rfl rfl fun h => ⟨_, h, rfl, rfl, rfl⟩

theorem later_warn (message : String) : f.Later (f.warn message) :=
  .of_registers rfl rfl rfl rfl rfl rfl rfl fun h => ⟨_, h, rfl, rfl, rfl⟩

theorem later_tick : f.Later f.tick where
  clock := Nat.le_succ _
  lifetimes := rfl
  localTypes := rfl
  signature := rfl
  paramCount := rfl
  strategy := rfl
  size := rfl
  register h := ⟨_, h, rfl, rfl, rfl⟩
  bound h _ _ _ _ := h

/-- The frame after a temporary has been made. -/
theorem temporary_eq : f.temporary = (f.registers.createTemporary.1,
    { f with registers := f.registers.createTemporary.2, notes := f.temporary.2.notes }) := by
  simp only [temporary, noteIf_eq]

variable (r : Registers) (b first last : Option Nat)

theorem arena_takeSlot : r.takeSlot.2.arena = r.arena := by
  unfold Registers.takeSlot
  split <;> rfl

theorem get?_create (id : RegisterId) :
    (r.create b first last).2.get? id = if id = r.arena.size then
      some { boundTo := b, slot := r.takeSlot.1, firstRef := first, lastRef := last }
    else r.get? id := by
  simp only [Registers.create, Registers.get?, arena_takeSlot, Array.getElem?_push]

theorem create_fst : (r.create b first last).1 = r.arena.size := by
  simp only [Registers.create, arena_takeSlot]

theorem get?_create_of_some {r : Registers} {register : Register} (h : r.get? id = some register)
    (b first last : Option Nat) : (r.create b first last).2.get? id = some register := by
  rw [get?_create, if_neg (Nat.ne_of_lt (Registers.get?_lt h))]
  exact h

theorem strategy_create : (r.create b first last).2.strategy = r.strategy := by
  simp only [Registers.create, Registers.takeSlot]
  split <;> rfl

theorem later_temporary : f.Later f.temporary.2 := by
  rw [temporary_eq]
  exact .of_registers rfl rfl rfl rfl rfl (strategy_create _ _ _ _) rfl fun hr =>
    ⟨_, get?_create_of_some hr _ _ _, rfl, rfl, rfl⟩

variable {f}

/-- Binding a local that has no register yet. -/
def bind (f : Frame) (index : Nat) : Frame :=
  let registers := (f.registers.createNamed index f.clock (f.lifetimes.lastRef index)).2
  { f with
    registers
    locals := f.locals.modify index fun _ => some f.registers.arena.size }

theorem localRegister_of_bound {index : Nat} (h : f.locals[index]? = some (some id)) :
    f.localRegister index = (id, f) := by
  simp only [localRegister, h, Option.join_some]

theorem localRegister_of_unbound {index : Nat} (h : (f.locals[index]?).join = none) :
    f.localRegister index = (f.registers.arena.size,
      { f.bind index with notes := (f.localRegister index).2.notes }) := by
  simp only [localRegister, h, noteIf_eq, Registers.createNamed, bind, create_fst]

@[elab_as_elim]
theorem localRegister_cases {P : RegisterId × Frame → Prop} {index : Nat}
    (hbound : ∀ {id}, f.locals[index]? = some (some id) → P (id, f))
    (hunbound : ∀ {notes}, (f.locals[index]?).join = none →
      P (f.registers.arena.size, { f.bind index with notes })) : P (f.localRegister index) := by
  cases h : (f.locals[index]?).join with
  | some id =>
    rw [localRegister_of_bound (Option.join_eq_some_iff.1 h)]
    exact hbound (Option.join_eq_some_iff.1 h)
  | none =>
    rw [localRegister_of_unbound h]
    exact hunbound h

theorem later_bind {index : Nat} (h : (f.locals[index]?).join = none) (notes : Array String) :
    f.Later { f.bind index with notes } where
  clock := Nat.le_refl _
  lifetimes := rfl
  localTypes := rfl
  signature := rfl
  paramCount := rfl
  strategy := strategy_create _ _ _ _
  size := Array.size_modify
  register hr := ⟨_, get?_create_of_some hr _ _ _, rfl, rfl, rfl⟩
  bound {l id r last} hl _ _ _ _ := by
    have hne : index ≠ l := by
      rintro rfl
      rw [hl] at h
      cases h
    simp only [bind, Array.getElem?_modify, if_neg hne]
    exact hl

theorem later_localRegister (f : Frame) (index : Nat) : f.Later (f.localRegister index).2 :=
  localRegister_cases (fun _ => .refl f) fun h => later_bind h _

theorem fixed_localRegister (f : Frame) (index : Nat) :
    (f.localRegister index).2.stack = f.stack ∧ (f.localRegister index).2.sites = f.sites :=
  localRegister_cases (fun _ => ⟨rfl, rfl⟩) fun _ => ⟨rfl, rfl⟩

theorem unbind_eq (f : Frame) (index : Option Nat) (id : RegisterId) : f.unbind index id =
    { f with locals := index.elim f.locals fun index =>
        f.locals.modify index fun b => if b = some id then none else b } := by
  cases index <;> rfl

theorem surrender_eq (f : Frame) (id : RegisterId) (r : Register) : f.surrender id r =
    { f with
      locals := r.boundTo.elim f.locals fun index =>
        f.locals.modify index fun b => if b = some id then none else b
      registers := f.registers.freed id r, notes := (f.surrender id r).notes } := by
  simp only [surrender, noteIf_eq, unbind_eq]

theorem get?_freed {r : Registers} {register : Register} (j : RegisterId) :
    (r.freed id register).get? j =
      if id = j then (r.get? j).map fun r => { r with live := false } else r.get? j :=
  Registers.get?_modify r id _ j

/-! ### What an operation can come to -/

section

variable {P : Frame → Prop}

/-- A register is freed, waits, or stays as it is. -/
@[elab_as_elim]
theorem freed_cases (hsame : P f)
    (hwaits : ∀ {r}, f.registers.get? id = some r → r.live = true ∧ r.stackRefs = 0 →
      f.outlives r = true → id ∉ f.pending → P { f with pending := f.pending ++ [id] })
    (hfreed : ∀ {r}, f.registers.get? id = some r → r.live = true ∧ r.stackRefs = 0 →
      f.outlives r = false → P (f.surrender id r)) : P (f.freed id) := by
  unfold freed
  cases hi : f.registers.get? id with
  | none => exact hsame
  | some r =>
    simp only
    split
    · exact hsame
    · rename_i hr
      simp only [Bool.not_eq_true, Bool.or_eq_false_iff, Bool.not_eq_false', bne_eq_false_iff_eq]
        at hr
      split
      · rename_i ho
        split
        · exact hsame
        · rename_i hp
          exact hwaits hi hr ho (by simpa using hp)
      · rename_i ho
        exact hfreed hi hr (by simpa using ho)

@[elab_as_elim]
theorem accessed_cases {index : Nat} (hsame : P f)
    (hfreed : ∀ {id}, f.locals[index]? = some (some id) → P (f.freed id)) :
    P (f.accessed index) := by
  unfold accessed
  split
  · exact hsame
  · rename_i h
    exact hfreed (Option.join_eq_some_iff.1 h)

@[elab_as_elim]
theorem released_cases (hsame : P (f.unreferenced id)) (hfreed : P ((f.unreferenced id).freed id)) :
    P (f.released id) := by
  unfold released
  split
  · exact hfreed
  · exact hsame

@[elab_as_elim]
theorem dropped_cases (hsame : P f) (hwarn : ∀ message, P (f.warn message))
    (hliteral : ∀ {l rest}, f.stack = .literal l :: rest → P { f with stack := rest })
    (hregister : ∀ {id rest}, f.stack = .register id :: rest →
      P ({ f with stack := rest }.released id)) : P f.dropped := by
  unfold dropped
  split
  · exact hwarn _
  · split
    · exact hsame
    · rename_i h
      exact hliteral h
    · rename_i h
      exact hregister h

@[elab_as_elim]
theorem peek_cases (n : Nat) (hsame : P f) (hwarn : ∀ message, P (f.warn message)) :
    P (f.peek n).2 := by
  unfold peek
  split
  · exact hwarn _
  · split <;> exact hsame

end

/-- An attempt to free a register concerns registers and locals and the queue only. -/
theorem freed_eq (f : Frame) (id : RegisterId) : ∃ registers locals pending notes,
    f.freed id = { f with registers, locals, pending, notes } ∧
      registers.slotCount = f.registers.slotCount := by
  refine freed_cases ⟨_, _, _, _, rfl, rfl⟩ (fun _ _ _ _ => ⟨_, _, _, _, rfl, rfl⟩) fun _ _ _ =>
    ⟨_, _, _, _, f.surrender_eq id _, rfl⟩

theorem later_surrender {r : Register} (hr : f.registers.get? id = some r)
    (ho : f.outlives r = false) : f.Later (f.surrender id r) := by
  rw [surrender_eq]
  refine ⟨Nat.le_refl _, rfl, rfl, rfl, rfl, rfl, ?_, ?_, ?_⟩
  · cases r.boundTo <;> simp
  · intro j s hs
    simp only [get?_freed, hs, Option.map_some]
    split <;> exact ⟨_, rfl, rfl, rfl, rfl⟩
  · -- a binding that is lost is one whose lifetime has ended
    intro l j s last hl hs hb hlast hc
    by_cases hj : j = id
    · subst hj
      rw [hr] at hs
      cases hs
      simp only [outlives, hb, hlast, Option.isSome_some, Option.any_some, Bool.true_and,
        decide_eq_false_iff_not] at ho
      exact absurd hc ho
    · cases r.boundTo with
      | none => exact hl
      | some index =>
        simp only [Option.elim_some, Array.getElem?_modify, hl, Option.map_some]
        split
        · rw [if_neg (by simpa using hj)]
        · rfl

variable (f id)

theorem later_freed : f.Later (f.freed id) :=
  freed_cases (.refl f)
    (fun _ _ _ _ => .of_registers rfl rfl rfl rfl rfl rfl rfl fun h => ⟨_, h, rfl, rfl, rfl⟩)
    fun hr _ ho => later_surrender hr ho

theorem later_accessed (index : Nat) : f.Later (f.accessed index) :=
  accessed_cases (.refl f) fun _ => f.later_freed _

theorem later_modify (g : Register → Register)
    (hg : ∀ r, (g r).slot = r.slot ∧ (g r).boundTo = r.boundTo ∧ (g r).lastRef = r.lastRef) :
    f.Later { f with registers := f.registers.modify id g } := by
  refine .of_registers rfl rfl rfl rfl rfl rfl rfl fun {j r} h => ?_
  simp only [Registers.get?_modify, h, Option.map_some]
  split
  · exact ⟨_, rfl, hg r⟩
  · exact ⟨_, rfl, rfl, rfl, rfl⟩

theorem later_released : f.Later (f.released id) := by
  have h : f.Later (f.unreferenced id) := f.later_modify id _ fun _ => ⟨rfl, rfl, rfl⟩
  exact released_cases h (h.trans (later_freed _ _))

theorem later_stack (stack : List Entry) : f.Later { f with stack } :=
  .of_registers rfl rfl rfl rfl rfl rfl rfl fun h => ⟨_, h, rfl, rfl, rfl⟩

theorem later_popped : f.Later f.popped := by
  refine Later.trans ?_ (later_noteIf _ _ _)
  exact dropped_cases (.refl f) f.later_warn (fun _ => f.later_stack _)
    fun _ => (f.later_stack _).trans (later_released _ _)

theorem pushLiteral_eq (l : Literal) : f.pushLiteral l =
    { f with stack := .literal l :: f.stack, notes := (f.pushLiteral l).notes } := by
  simp only [pushLiteral, noteIf_eq]

theorem later_pushLiteral (l : Literal) : f.Later (f.pushLiteral l) := by
  rw [pushLiteral_eq]
  exact .of_registers rfl rfl rfl rfl rfl rfl rfl fun hr => ⟨_, hr, rfl, rfl, rfl⟩

theorem pushRegister_eq : f.pushRegister id =
    { f with
      registers := f.registers.modify id fun r => { r with stackRefs := r.stackRefs + 1 }
      stack := .register id :: f.stack, notes := (f.pushRegister id).notes } := by
  simp only [pushRegister, noteIf_eq]

theorem later_pushRegister : f.Later (f.pushRegister id) := by
  rw [pushRegister_eq]
  exact (f.later_modify id (fun r => { r with stackRefs := r.stackRefs + 1 }) fun _ =>
    ⟨rfl, rfl, rfl⟩).trans
    (.of_registers rfl rfl rfl rfl rfl rfl rfl fun hr => ⟨_, hr, rfl, rfl, rfl⟩)

theorem later_peek (n : Nat) : f.Later (f.peek n).2 := peek_cases n (.refl f) f.later_warn

theorem locals_detachAliases : (f.detachAliases id).2.locals = f.locals := by
  unfold detachAliases
  simp only
  split <;> rfl

theorem later_detachAliases : f.Later (f.detachAliases id).2 := by
  unfold detachAliases
  simp only
  split
  · exact .refl f
  · refine .of_registers rfl rfl rfl rfl rfl (strategy_create f.registers none none none) rfl
      fun {j r} h => ?_
    simp only [Registers.get?_modify, Registers.createTemporary, get?_create_of_some h,
      Option.map_some]
    split <;> split <;> exact ⟨_, rfl, rfl, rfl, rfl⟩

theorem later_blocks (blocks : List Block) : f.Later { f with blocks } :=
  .of_registers rfl rfl rfl rfl rfl rfl rfl fun h => ⟨_, h, rfl, rfl, rfl⟩

theorem later_openBlock (name : BlockName) (result : Option ValueType) :
    f.Later (f.openBlock name result).2 := by
  cases result with
  | none => exact f.later_blocks _
  | some t => exact f.later_temporary.trans (later_blocks _ _)

theorem later_dropBlock : f.Later f.dropBlock := f.later_blocks _

/-! ## Places to go on at, slots, and locals without a register -/

/-- No place to go on at is added, and no slot is taken back. -/
structure Passed (f g : Frame) : Prop where
  sites : g.sites = f.sites
  slots : f.registers.slotCount ≤ g.registers.slotCount

/-- The local has no register. -/
def Unbound (f : Frame) (index : Nat) : Prop := (f.locals[index]?).join = none

/-- Moreover, no local gets a register. -/
structure Sheds (f g : Frame) : Prop extends Passed f g where
  unbound : ∀ l, f.Unbound l → g.Unbound l

theorem slotCount_takeSlot (r : Registers) : r.slotCount ≤ r.takeSlot.2.slotCount := by
  unfold Registers.takeSlot
  split
  · exact Nat.le_refl _
  · exact Nat.le_succ _

theorem Passed.localRegister (index : Nat) : f.Passed (f.localRegister index).2 :=
  ⟨(f.fixed_localRegister index).2,
    localRegister_cases (fun _ => Nat.le_refl _) fun _ => slotCount_takeSlot _⟩

namespace Sheds

variable {f} {g h : Frame}

theorem trans (hfg : f.Sheds g) (hgh : g.Sheds h) : f.Sheds h :=
  ⟨⟨hgh.sites.trans hfg.sites, Nat.le_trans hfg.slots hgh.slots⟩,
    fun l hl => hgh.unbound l (hfg.unbound l hl)⟩

theorem of_locals (hl : g.locals = f.locals) (hs : g.sites = f.sites)
    (hr : f.registers.slotCount ≤ g.registers.slotCount) : f.Sheds g :=
  ⟨⟨hs, hr⟩, fun l => by simp only [Unbound, hl, imp_self]⟩

variable (f)

theorem refl : f.Sheds f := .of_locals rfl rfl Nat.le.refl

theorem foldl {ι : Type} {u : Frame → ι → Frame} (hu : ∀ f i, Sheds f (u f i))
    (items : List ι) (f : Frame) : f.Sheds (items.foldl u f) :=
  List.foldlRecOn items _ (refl f) fun _ hg i _ => hg.trans (hu _ i)

theorem noteIf (b : Bool) (text : String) : f.Sheds (f.noteIf b text) := by
  rw [noteIf_eq]
  exact .of_locals rfl rfl Nat.le.refl

theorem tick : f.Sheds f.tick := .of_locals rfl rfl Nat.le.refl

theorem warn (message : String) : f.Sheds (f.warn message) := .of_locals rfl rfl Nat.le.refl

theorem blocks (blocks : List Block) : f.Sheds { f with blocks } := .of_locals rfl rfl Nat.le.refl

theorem freed (id : RegisterId) : f.Sheds (f.freed id) := by
  refine freed_cases (refl f) (fun _ _ _ _ => .of_locals rfl rfl Nat.le.refl) fun {r} _ _ _ => ?_
  rw [surrender_eq]
  refine ⟨⟨rfl, Nat.le.refl⟩, fun l hl => ?_⟩
  unfold Unbound at hl ⊢
  cases r.boundTo with
  | none => exact hl
  | some index =>
    simp only [Option.elim_some, Array.getElem?_modify]
    split
    · cases ho : f.locals[l]? with
      | none => rfl
      | some o =>
        rw [ho] at hl
        cases o with
        | none => simp
        | some j => cases hl
    · exact hl

theorem drained : f.Sheds f.drained := by
  have h : f.Sheds { f with pending := [] } := .of_locals rfl rfl Nat.le.refl
  exact h.trans (.foldl freed _ _)

theorem accessed (index : Nat) : f.Sheds (f.accessed index) :=
  accessed_cases (refl f) fun _ => freed f _

theorem popped : f.Sheds f.popped := by
  have hstack (stack : List Entry) : f.Sheds { f with stack } := .of_locals rfl rfl Nat.le.refl
  refine Sheds.trans ?_ (noteIf _ _ _)
  refine dropped_cases (refl f) (warn f) (fun _ => hstack _) fun {id rest} _ => ?_
  have hu : f.Sheds ({ f with stack := rest }.unreferenced id) := .of_locals rfl rfl Nat.le.refl
  exact released_cases hu (hu.trans (freed _ id))

theorem temporary : f.Sheds f.temporary.2 := by
  rw [temporary_eq]
  exact .of_locals rfl rfl (slotCount_takeSlot _)

theorem pushLiteral (l : Literal) : f.Sheds (f.pushLiteral l) := by
  rw [pushLiteral_eq]
  exact .of_locals rfl rfl Nat.le.refl

theorem pushRegister (id : RegisterId) : f.Sheds (f.pushRegister id) := by
  rw [pushRegister_eq]
  exact .of_locals rfl rfl Nat.le.refl

theorem peek (n : Nat) : f.Sheds (f.peek n).2 := peek_cases n (refl f) (warn f)

theorem detachAliases (id : RegisterId) : f.Sheds (f.detachAliases id).2 := by
  unfold Frame.detachAliases
  simp only
  split
  · exact refl f
  · exact .of_locals rfl rfl (slotCount_takeSlot _)

theorem openBlock (name : BlockName) (result : Option ValueType) :
    f.Sheds (f.openBlock name result).2 := by
  cases result with
  | none => exact blocks f _
  | some t => exact (temporary f).trans (blocks _ _)

end Sheds

end Moonstack.Frame
