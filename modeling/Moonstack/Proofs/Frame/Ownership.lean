import Moonstack.Proofs.Frame.Allocator

/-!
# Ownership of registers

Who needs a live register: the operand stack, a local, or an open block that will receive a value.
`Frame.Owned f held` is the invariant of the writing of a function; every frame operation keeps it.
The list `held` names the temporaries that the instruction under way has in hand, which are not on
the stack yet.

* The reference count of a register is the number of its stack entries, and what is on the stack is
  live.
* A live register of a local is the one the local is bound to, and the other way round.
* Registers of open blocks and registers in hand are live temporaries that nothing else refers to.
-/

namespace Moonstack.Frame

variable {index : Nat} {a : Register}

/-- The registers that are kept for a value to come: those of open blocks and those in hand. -/
def reserved (f : Frame) (held : List RegisterId) : List RegisterId :=
  f.blocks.filterMap Block.register ++ held

/-- Every live register has an owner, and owners do not share. -/
structure Owned (f : Frame) (held : List RegisterId) : Prop where
  sound : f.registers.Sound
  size : f.locals.size = f.localTypes.length
  forced : ∀ p ∈ f.lifetimes.forced, p.2 < f.localTypes.length
  refs : ∀ {i a}, f.registers.get? i = some a → a.stackRefs = f.stack.count (.register i)
  stacked : ∀ {i}, .register i ∈ f.stack → ∃ a, f.registers.get? i = some a ∧ a.live = true
  bound : ∀ {l i}, f.locals[l]? = some (some i) → ∃ a, f.registers.get? i = some a ∧
    a.live = true ∧ a.boundTo = some l ∧ a.lastRef = f.lifetimes.lastRef l
  named : ∀ {i a l}, f.registers.get? i = some a → a.live = true → a.boundTo = some l →
    f.locals[l]? = some (some i)
  kept : ∀ {i}, i ∈ f.reserved held → ∃ a, f.registers.get? i = some a ∧ a.live = true ∧
    a.boundTo = none ∧ a.stackRefs = 0
  nodup : (f.reserved held).Nodup
  waiting : ∀ {i}, i ∈ f.pending → ∃ a, f.registers.get? i = some a ∧ a.boundTo.isSome = true

namespace Owned

variable {f g : Frame} {held : List RegisterId} {id : RegisterId}

section

variable (h : f.Owned held)
include h

/-- The invariant does not look at clock, comments, warnings and log. -/
theorem congr (hr : g.registers = f.registers) (hl : g.locals = f.locals)
    (ht : g.localTypes = f.localTypes) (hlt : g.lifetimes = f.lifetimes) (hs : g.stack = f.stack)
    (hb : g.blocks = f.blocks) (hp : g.pending = f.pending) : g.Owned held where
  sound := hr ▸ h.sound
  size := by rw [hl, ht]; exact h.size
  forced := by rw [hlt, ht]; exact h.forced
  refs := by rw [hr, hs]; exact h.refs
  stacked := by rw [hr, hs]; exact h.stacked
  bound := by rw [hr, hl, hlt]; exact h.bound
  named := by rw [hr, hl]; exact h.named
  kept := by rw [reserved, hr, hb]; exact h.kept
  nodup := by rw [reserved, hb]; exact h.nodup
  waiting := by rw [hr, hp]; exact h.waiting

theorem noteIf (b : Bool) (text : String) : (f.noteIf b text).Owned held := by
  rw [noteIf_eq]
  exact h.congr rfl rfl rfl rfl rfl rfl rfl

theorem warn (message : String) : (f.warn message).Owned held :=
  h.congr rfl rfl rfl rfl rfl rfl rfl

theorem tick : f.tick.Owned held :=
  h.congr rfl rfl rfl rfl rfl rfl rfl

theorem peek (n : Nat) : (f.peek n).2.Owned held := peek_cases n h h.warn

theorem count_eq_zero {i : RegisterId} (hi : f.registers.get? i = none) :
    f.stack.count (.register i) = 0 := by
  refine List.count_eq_zero.2 fun hm => ?_
  obtain ⟨a, ha, -⟩ := h.stacked hm
  rw [hi] at ha
  cases ha

/-! ## Making registers -/

omit h in
theorem get?_size (r : Registers) : r.get? r.arena.size = none := by
  simp [Registers.get?]

/-- A register made for `b` is owned by nobody yet. -/
theorem create (b first last : Option Nat) : let r := (f.registers.create b first last).2
    (∀ {i a}, r.get? i = some a → a.stackRefs = f.stack.count (.register i)) ∧
      (∀ {i a}, f.registers.get? i = some a → r.get? i = some a) := by
  refine ⟨fun {i a} hi => ?_, fun hi => get?_create_of_some hi _ _ _⟩
  rw [get?_create] at hi
  split at hi
  · rename_i he
    cases hi
    rw [he]
    exact (h.count_eq_zero (get?_size f.registers)).symm
  · exact h.refs hi

theorem temporary : f.temporary.2.Owned (f.temporary.1 :: held) := by
  obtain ⟨hrefs, hold⟩ := h.create none none none
  have hid : f.registers.createTemporary.1 = f.registers.arena.size := create_fst _ _ _ _
  rw [temporary_eq]
  refine ⟨h.sound.create _ _ _, h.size, h.forced, hrefs, fun hm => ?_, fun hl => ?_,
    fun {i a l} hi ha hb => ?_, fun {i} hm => ?_, ?_, fun hm => ?_⟩
  · obtain ⟨a, ha, hl⟩ := h.stacked hm
    exact ⟨a, hold ha, hl⟩
  · obtain ⟨a, ha, hrest⟩ := h.bound hl
    exact ⟨a, hold ha, hrest⟩
  · rw [Registers.createTemporary, get?_create] at hi
    split at hi
    · cases hi
      cases hb
    · exact h.named hi ha hb
  · rcases List.mem_append.1 hm with hm | hm
    · obtain ⟨a, ha, hrest⟩ := h.kept (List.mem_append_left _ hm)
      exact ⟨a, hold ha, hrest⟩
    · rcases List.mem_cons.1 hm with rfl | hm
      · rw [hid]
        exact ⟨_, by rw [Registers.createTemporary, get?_create, if_pos rfl], rfl, rfl, rfl⟩
      · obtain ⟨a, ha, hrest⟩ := h.kept (List.mem_append_right _ hm)
        exact ⟨a, hold ha, hrest⟩
  · refine List.perm_middle.symm.nodup (List.nodup_cons.2 ⟨fun hm => ?_, h.nodup⟩)
    obtain ⟨a, ha, -⟩ := h.kept hm
    rw [hid, get?_size] at ha
    cases ha
  · obtain ⟨a, ha, hb⟩ := h.waiting hm
    exact ⟨a, hold ha, hb⟩

theorem bind (hi : index < f.localTypes.length) (hu : (f.locals[index]?).join = none) :
    (f.bind index).Owned held := by
  obtain ⟨hrefs, hold⟩ := h.create (some index) (some f.clock) (f.lifetimes.lastRef index)
  have hlt : index < f.locals.size := h.size ▸ hi
  have hnew : (f.bind index).registers.get? f.registers.arena.size = some
      { boundTo := some index, slot := f.registers.takeSlot.1, firstRef := some f.clock,
        lastRef := f.lifetimes.lastRef index } := by
    rw [Frame.bind, Registers.createNamed, get?_create, if_pos rfl]
  refine ⟨h.sound.create _ _ _, Array.size_modify.trans h.size, h.forced, hrefs, fun hm => ?_,
    fun {l i} hl => ?_, fun {i a l} hi ha hb => ?_, fun hm => ?_, h.nodup, fun hm => ?_⟩
  · obtain ⟨a, ha, hl⟩ := h.stacked hm
    exact ⟨a, hold ha, hl⟩
  · simp only [Frame.bind, Array.getElem?_modify] at hl
    split at hl
    · rename_i he
      subst he
      rw [Array.getElem?_eq_getElem hlt] at hl
      simp only [Option.map_some, Option.some.injEq] at hl
      exact ⟨_, hl ▸ hnew, rfl, rfl, rfl⟩
    · obtain ⟨a, ha, hrest⟩ := h.bound hl
      exact ⟨a, hold ha, hrest⟩
  · simp only [Frame.bind, Registers.createNamed, get?_create] at hi
    simp only [Frame.bind, Array.getElem?_modify]
    split at hi
    · rename_i he
      cases hi
      cases hb
      rw [if_pos rfl, Array.getElem?_eq_getElem hlt, he]
      rfl
    · have hl := h.named hi ha hb
      rw [if_neg]
      · exact hl
      · rintro rfl
        rw [hl] at hu
        cases hu
  · obtain ⟨a, ha, hrest⟩ := h.kept hm
    exact ⟨a, hold ha, hrest⟩
  · obtain ⟨a, ha, hb⟩ := h.waiting hm
    exact ⟨a, hold ha, hb⟩

/-- A local has a register after it has been asked for, and the invariant stays. -/
theorem localRegister (hi : index < f.localTypes.length) :
    (f.localRegister index).2.Owned held ∧
      (f.localRegister index).2.locals[index]? = some (some (f.localRegister index).1) := by
  cases hu : f.locals[index]? with
  | none => exact absurd (Array.getElem?_eq_none_iff.1 hu) (by rw [h.size]; omega)
  | some o =>
    cases o with
    | some id =>
      rw [localRegister_of_bound hu]
      exact ⟨h, hu⟩
    | none =>
      have hj : (f.locals[index]?).join = none := by rw [hu]; rfl
      rw [localRegister_of_unbound hj]
      refine ⟨(h.bind hi hj).congr rfl rfl rfl rfl rfl rfl rfl, ?_⟩
      simp only [Frame.bind, Array.getElem?_modify, if_pos, hu, Option.map_some]

/-! ## Freeing registers -/

/-- A register that is kept for a value to come is no register of a local. -/
theorem not_kept {i : RegisterId} (hi : f.registers.get? i = some a)
    (hb : a.boundTo.isSome = true) : i ∉ f.reserved held := by
  intro hm
  obtain ⟨a', ha', -, hn, -⟩ := h.kept hm
  rw [hi] at ha'
  cases ha'
  rw [hn] at hb
  cases hb

theorem surrender (hi : f.registers.get? id = some a) (hl : a.live = true) (hz : a.stackRefs = 0)
    (hk : id ∉ f.reserved held) : (f.surrender id a).Owned held := by
  rw [surrender_eq]
  have hother {i : RegisterId} {b : Register} (hne : id ≠ i) (hb : f.registers.get? i = some b) :
      (f.registers.freed id a).get? i = some b := by
    rw [get?_freed, if_neg hne]
    exact hb
  have hold {l : Nat} {i : RegisterId} (hne : id ≠ i) (hb : f.locals[l]? = some (some i)) :
      (a.boundTo.elim f.locals fun index =>
        f.locals.modify index fun b => if b = some id then none else b)[l]? = some (some i) := by
    cases a.boundTo with
    | none => exact hb
    | some index =>
      simp only [Option.elim_some, Array.getElem?_modify, hb, Option.map_some]
      split
      · rw [if_neg (by simpa using fun he : i = id => hne he.symm)]
      · rfl
  refine ⟨h.sound.freed hi hl, ?_, h.forced, fun {i b} hb => ?_, fun {i} hm => ?_,
    fun {l i} hb => ?_, fun {i b l} hb hlive hbound => ?_, fun {i} hm => ?_, h.nodup,
    fun {i} hm => ?_⟩
  · refine Eq.trans ?_ h.size
    cases a.boundTo <;> simp
  · simp only [get?_freed] at hb
    split at hb
    · obtain ⟨c, hc, rfl⟩ := Option.map_eq_some_iff.1 hb
      exact (h.refs hc :)
    · exact h.refs hb
  · obtain ⟨b, hb, hlive⟩ := h.stacked hm
    refine ⟨b, hother ?_ hb, hlive⟩
    rintro rfl
    rw [h.refs hi] at hz
    exact List.count_eq_zero.1 hz hm
  · -- a binding that is left is not the one that has been undone
    have hf : f.locals[l]? = some (some i) ∧ id ≠ i := by
      cases ha : a.boundTo with
      | none =>
        rw [ha] at hb
        refine ⟨hb, ?_⟩
        rintro rfl
        obtain ⟨c, hc, -, hbound, -⟩ := h.bound hb
        rw [hi] at hc
        cases hc
        rw [ha] at hbound
        cases hbound
      | some index =>
        simp only [ha, Option.elim_some, Array.getElem?_modify] at hb
        split at hb
        · obtain ⟨c, hc, hif⟩ := Option.map_eq_some_iff.1 hb
          split at hif
          · cases hif
          · rename_i hne
            subst hif
            exact ⟨hc, fun he => hne (by rw [he])⟩
        · rename_i hne
          refine ⟨hb, ?_⟩
          rintro rfl
          obtain ⟨c, hc, -, hbound, -⟩ := h.bound hb
          rw [hi] at hc
          cases hc
          rw [ha] at hbound
          exact hne (Option.some.inj hbound)
    obtain ⟨c, hc, hrest⟩ := h.bound hf.1
    exact ⟨c, hother hf.2 hc, hrest⟩
  · simp only [get?_freed] at hb
    split at hb
    · obtain ⟨c, hc, rfl⟩ := Option.map_eq_some_iff.1 hb
      cases hlive
    · rename_i hne
      exact hold hne (h.named hb hlive hbound)
  · obtain ⟨b, hb, hrest⟩ := h.kept hm
    refine ⟨b, hother ?_ hb, hrest⟩
    rintro rfl
    exact hk hm
  · obtain ⟨b, hb, hbound⟩ := h.waiting hm
    simp only [get?_freed, hb, Option.map_some]
    split <;> exact ⟨_, rfl, hbound⟩

theorem freed (hk : id ∉ f.reserved held) : (f.freed id).Owned held := by
  refine freed_cases h (fun {a} hi _ ho _ => { h with waiting := fun {i} hm => ?_ })
    fun hi hr _ => h.surrender hi hr.1 hr.2 hk
  rcases List.mem_append.1 hm with hm | hm
  · exact h.waiting hm
  · obtain rfl := List.mem_singleton.1 hm
    exact ⟨a, hi, (Bool.and_eq_true_iff.1 ho).1⟩

omit h in
theorem reserved_freed (f : Frame) (id : RegisterId) (held : List RegisterId) :
    (f.freed id).reserved held = f.reserved held := by
  obtain ⟨_, _, _, _, h, -⟩ := f.freed_eq id
  rw [h]
  rfl

theorem freedAll {ids : List RegisterId} (hk : ∀ i ∈ ids, i ∉ f.reserved held) :
    (f.freedAll ids).Owned held := by
  induction ids generalizing f with
  | nil => exact h
  | cons i rest ih =>
    refine ih (h.freed (hk i List.mem_cons_self)) fun j hj => ?_
    rw [reserved_freed]
    exact hk j (List.mem_cons_of_mem _ hj)

theorem drained : f.drained.Owned held := by
  have hc : { f with pending := [] }.Owned held :=
    { h with waiting := fun hm => by cases hm }
  refine hc.freedAll fun i hi => ?_
  obtain ⟨a, ha, hb⟩ := h.waiting hi
  exact h.not_kept ha hb

theorem accessed (index : Nat) : (f.accessed index).Owned held := by
  refine accessed_cases h fun hi => ?_
  obtain ⟨a, ha, -, hb, -⟩ := h.bound hi
  exact h.freed (h.not_kept ha (by rw [hb]; rfl))

/-! ## The operand stack -/

theorem pushLiteral (l : Literal) : (f.pushLiteral l).Owned held := by
  rw [pushLiteral_eq]
  refine { h with refs := fun hi => ?_, stacked := fun hm => ?_ }
  · rw [h.refs hi, List.count_cons_of_ne (by simp)]
  · rcases List.mem_cons.1 hm with he | hm
    · cases he
    · exact h.stacked hm

/-- Registers whose reference counts follow the stack keep everything else. -/
theorem restack {stack : List Entry} {registers : Registers} {notes}
    (hs : registers.Sound)
    (hr : ∀ i, registers.get? i = (f.registers.get? i).map fun a =>
      { a with stackRefs := stack.count (.register i) })
    (hm : ∀ {i}, .register i ∈ stack → .register i ∉ f.stack →
      ∃ a, f.registers.get? i = some a ∧ a.live = true)
    (hk : ∀ {i}, i ∈ f.reserved held → .register i ∉ stack) :
    { f with registers, stack, notes }.Owned held := by
  refine { h with
    sound := hs
    refs := fun {i a} hi => ?_, stacked := fun {i} hi => ?_, bound := fun {l i} hl => ?_
    named := fun {i a l} hi ha hb => ?_, kept := fun {i} hi => ?_, waiting := fun {i} hi => ?_ }
  · rw [hr] at hi
    obtain ⟨c, -, rfl⟩ := Option.map_eq_some_iff.1 hi
    rfl
  · have hlive : ∃ a, f.registers.get? i = some a ∧ a.live = true := by
      by_cases hf : Entry.register i ∈ f.stack
      · exact h.stacked hf
      · exact hm hi hf
    obtain ⟨a, ha, hl⟩ := hlive
    exact ⟨_, (hr i).trans (congrArg _ ha), hl⟩
  · obtain ⟨a, ha, hl, hb, hlast⟩ := h.bound hl
    exact ⟨_, (hr i).trans (congrArg _ ha), hl, hb, hlast⟩
  · rw [hr] at hi
    obtain ⟨c, hc, rfl⟩ := Option.map_eq_some_iff.1 hi
    exact h.named hc ha hb
  · obtain ⟨a, ha, hl, hb, -⟩ := h.kept hi
    exact ⟨_, (hr i).trans (congrArg _ ha), hl, hb, List.count_eq_zero.2 (hk hi)⟩
  · obtain ⟨a, ha, hb⟩ := h.waiting hi
    exact ⟨_, (hr i).trans (congrArg _ ha), hb⟩

theorem kept_not_stacked {i : RegisterId} (hi : i ∈ f.reserved held) : .register i ∉ f.stack := by
  obtain ⟨a, ha, -, -, hz⟩ := h.kept hi
  rw [h.refs ha] at hz
  exact List.count_eq_zero.1 hz

theorem pushRegister (hi : f.registers.get? id = some a) (hl : a.live = true)
    (hk : id ∉ f.reserved held) : (f.pushRegister id).Owned held := by
  rw [pushRegister_eq]
  refine h.restack (h.sound.modify _ _ fun _ => ⟨rfl, rfl⟩) (fun i => ?_) (fun {i} hm hf => ?_)
    (fun {i} hm => ?_)
  · rw [Registers.get?_modify]
    cases hc : f.registers.get? i with
    | none => split <;> rfl
    | some c =>
      have hrefs := h.refs hc
      split
      · rename_i he
        rw [he, List.count_cons_self, ← hrefs]
        rfl
      · rename_i hne
        rw [List.count_cons_of_ne (by simpa using hne), ← hrefs]
        rfl
  · rcases List.mem_cons.1 hm with he | hm
    · cases he
      exact ⟨a, hi, hl⟩
    · exact absurd hm hf
  · intro hp
    rcases List.mem_cons.1 hp with he | hp
    · cases he
      exact hk hm
    · exact h.kept_not_stacked hm hp

/-- The order of the registers in hand does not matter. -/
theorem perm {held' : List RegisterId} (hp : held.Perm held') : f.Owned held' := by
  have hr : (f.reserved held).Perm (f.reserved held') := hp.append_left _
  exact { h with kept := fun hm => h.kept (hr.symm.subset hm), nodup := hr.nodup h.nodup }

end

/-- A register in hand may be let go of. -/
theorem forget (h : f.Owned (id :: held)) : f.Owned held ∧ id ∉ f.reserved held := by
  have hp : (f.reserved (id :: held)).Perm (id :: f.reserved held) := List.perm_middle
  obtain ⟨hid, hnodup⟩ := List.nodup_cons.1 (hp.nodup h.nodup)
  exact ⟨{ h with
    kept := fun hm => h.kept (hp.symm.subset (List.mem_cons_of_mem _ hm)), nodup := hnodup }, hid⟩

theorem held_live (h : f.Owned (id :: held)) :
    ∃ a, f.registers.get? id = some a ∧ a.live = true := by
  obtain ⟨a, ha, hl, -⟩ := h.kept (List.mem_append_right _ List.mem_cons_self)
  exact ⟨a, ha, hl⟩

/-- A register in hand goes to the stack. -/
theorem pushHeld (h : f.Owned (id :: held)) : (f.pushRegister id).Owned held := by
  obtain ⟨a, ha, hl⟩ := h.held_live
  exact h.forget.1.pushRegister ha hl h.forget.2

/-- The register of a local goes to the stack. -/
theorem pushBound (h : f.Owned held) (hb : f.locals[index]? = some (some id)) :
    (f.pushRegister id).Owned held := by
  obtain ⟨a, ha, hl, hbound, -⟩ := h.bound hb
  exact h.pushRegister ha hl (h.not_kept ha (by rw [hbound]; rfl))

/-- The top entry is taken off. -/
theorem unreferenced (h : f.Owned held) {rest : List Entry} (hs : f.stack = .register id :: rest) :
    ({ f with stack := rest }.unreferenced id).Owned held := by
  refine h.restack (h.sound.modify _ _ fun _ => ⟨rfl, rfl⟩) (fun i => ?_) (fun {i} hm hf => ?_)
    (fun {i} hm => ?_)
  · rw [Registers.get?_modify]
    cases hc : f.registers.get? i with
    | none => split <;> rfl
    | some c =>
      have hrefs := h.refs hc
      rw [hs] at hrefs
      split
      · rename_i he
        rw [he, List.count_cons_self] at hrefs
        simp only [Option.map_some, hrefs, Nat.add_sub_cancel]
      · rename_i hne
        rw [List.count_cons_of_ne (by simpa using hne)] at hrefs
        rw [← hrefs]
        rfl
  · exact absurd (hs ▸ List.mem_cons_of_mem _ hm) hf
  · have hn := h.kept_not_stacked hm
    rw [hs] at hn
    exact fun hr => hn (List.mem_cons_of_mem _ hr)

theorem dropped (h : f.Owned held) : f.dropped.Owned held := by
  refine dropped_cases h h.warn (fun hs => ?_) fun {id rest} hs => ?_
  · refine { h with refs := fun hi => ?_, stacked := fun hm => ?_ }
    · rw [h.refs hi, hs, List.count_cons_of_ne (by simp)]
    · exact h.stacked (hs ▸ List.mem_cons_of_mem _ hm)
  · have hu := h.unreferenced hs
    have hk : id ∉ f.reserved held := fun hm =>
      h.kept_not_stacked hm (hs ▸ List.mem_cons_self)
    exact released_cases hu (hu.freed hk)

theorem popped (h : f.Owned held) : f.popped.Owned held := h.dropped.noteIf _ _

/-- How often an entry stands on a stack after all entries `x` have become `y`. -/
theorem count_moved {x y z : Entry} {stack : List Entry} (hne : x ≠ y) (hy : y ∉ stack) :
    (stack.map fun e => if e = x then y else e).count z =
      if z = x then 0 else if z = y then stack.count x else stack.count z := by
  induction stack with
  | nil => simp
  | cons e rest ih =>
    have hrest : y ∉ rest := fun hm => hy (List.mem_cons_of_mem _ hm)
    have hye : e ≠ y := fun he => hy (he ▸ List.mem_cons_self)
    simp only [List.map_cons, List.count_cons, ih hrest, beq_iff_eq]
    grind

/-- After the stack entries of a register have moved to a copy, none refers to it. -/
theorem detached (h : f.Owned held) (ha : f.registers.get? id = some a) :
    (f.detachAliases id).2.Owned held ∧ .register id ∉ (f.detachAliases id).2.stack := by
  unfold Frame.detachAliases
  simp only [ha, Option.map_some, Option.getD_some]
  split
  · rename_i hz
    rw [h.refs ha] at hz
    exact ⟨h, List.count_eq_zero.1 hz⟩
  · have hn : f.registers.createTemporary.1 = f.registers.arena.size := create_fst _ _ _ _
    have hne : Entry.register id ≠ .register f.registers.arena.size := by
      simpa using Nat.ne_of_lt (Registers.get?_lt ha)
    have hfresh : Entry.register f.registers.arena.size ∉ f.stack := by
      intro hm
      obtain ⟨c, hc, -⟩ := h.stacked hm
      rw [get?_size] at hc
      cases hc
    have htemp := h.temporary
    rw [temporary_eq] at htemp
    have hmoved (z : Entry) := count_moved (z := z) hne hfresh
    rw [hn]
    refine ⟨htemp.forget.1.restack ?_ (fun i => ?_) (fun {i} hm hf => ?_) (fun {i} hm hp => ?_), ?_⟩
    · refine Registers.Sound.modify ?_ _ _ fun _ => ⟨rfl, rfl⟩
      exact Registers.Sound.modify htemp.sound _ _ fun _ => ⟨rfl, rfl⟩
    · rw [Registers.get?_modify, Registers.get?_modify, hmoved]
      cases hc : f.registers.createTemporary.2.get? i with
      | none => split <;> split <;> rfl
      | some c =>
        have hrefs : c.stackRefs = f.stack.count (.register i) := htemp.refs hc
        have hrefsId := h.refs ha
        have hne' : id ≠ f.registers.arena.size := by simpa using hne
        simp only [Entry.register.injEq, Option.map_some]
        split <;> split
        · rename_i h₁ h₂
          exact absurd (h₂.trans h₁.symm) hne'
        · rename_i h₁ h₂
          rw [if_neg (Ne.symm h₂), if_pos h₁.symm, hrefsId]
          rfl
        · rename_i h₂
          rw [if_pos h₂.symm]
        · rename_i h₁ h₂
          rw [if_neg (Ne.symm h₂), if_neg (Ne.symm h₁), ← hrefs]
    · obtain ⟨e, he, hif⟩ := List.mem_map.1 hm
      split at hif
      · cases hif
        exact hn ▸ htemp.held_live
      · exact absurd (hif ▸ he) hf
    · obtain ⟨e, he, hif⟩ := List.mem_map.1 hp
      split at hif
      · cases hif
        exact htemp.forget.2 (hn ▸ hm)
      · exact htemp.forget.1.kept_not_stacked hm (hif ▸ he)
    · refine List.count_eq_zero.1 ?_
      rw [hmoved, if_pos rfl]

/-- The stack entries of a local move to a copy. -/
theorem detachAliases (h : f.Owned held) (hb : f.locals[index]? = some (some id)) :
    (f.detachAliases id).2.Owned held ∧ .register id ∉ (f.detachAliases id).2.stack := by
  obtain ⟨a, ha, -⟩ := h.bound hb
  exact h.detached ha

/-- A local keeps its register while others are freed. -/
theorem bound_freed {l : Nat} {j : RegisterId} (hb : f.locals[l]? = some (some id))
    (hne : j ≠ id) : (f.freed j).locals[l]? = some (some id) := by
  refine freed_cases hb (fun _ _ _ _ => hb) fun {r} _ _ _ => ?_
  rw [surrender_eq]
  cases r.boundTo with
  | none => exact hb
  | some index =>
    simp only [Option.elim_some, Array.getElem?_modify, hb, Option.map_some]
    split
    · rw [if_neg (by simpa using fun he : id = j => hne he.symm)]
    · rfl

/-- A local whose register is not on the stack keeps it when an operand is popped. -/
theorem bound_popped {l : Nat} (hb : f.locals[l]? = some (some id))
    (hn : .register id ∉ f.stack) : f.popped.locals[l]? = some (some id) := by
  rw [Frame.popped, noteIf_eq]
  refine dropped_cases hb (fun _ => hb) (fun _ => hb) fun {j _} hs => ?_
  have hne : j ≠ id := by
    rintro rfl
    exact hn (hs ▸ List.mem_cons_self)
  exact released_cases hb (bound_freed hb hne)

/-! ## Blocks -/

theorem openBlock (h : f.Owned held) (name : BlockName) (result : Option ValueType) :
    (f.openBlock name result).2.Owned held := by
  cases result with
  | none => exact { h with }
  | some t =>
    have ht := h.temporary
    have hp : ((f.openBlock name (some t)).2.reserved held).Perm
        (f.temporary.2.reserved (f.temporary.1 :: held)) :=
      List.perm_middle.symm
    exact { ht with
      kept := fun hm => ht.kept (hp.subset hm)
      nodup := hp.symm.nodup ht.nodup }

/-- The register of a block that is forgotten is in hand again. -/
theorem dropBlock (h : f.Owned held) {b : Block} {outer : List Block}
    (hb : f.blocks = b :: outer) : f.dropBlock.Owned (b.register.toList ++ held) := by
  have hp : (f.dropBlock.reserved (b.register.toList ++ held)).Perm (f.reserved held) := by
    simp only [reserved, Frame.dropBlock, hb, List.tail_cons]
    cases hr : b.register with
    | none => simp [hr]
    | some i => simp [hr, List.perm_middle]
  exact { h with
    kept := fun hm => h.kept (hp.subset hm)
    nodup := hp.symm.nodup h.nodup }

/-- Blocks with the same registers own the same. -/
theorem reblock (h : f.Owned held) {blocks : List Block}
    (hb : blocks.filterMap Block.register = f.blocks.filterMap Block.register) :
    { f with blocks }.Owned held := by
  have hr : { f with blocks }.reserved held = f.reserved held := by simp only [reserved, hb]
  exact { h with kept := hr ▸ h.kept, nodup := hr ▸ h.nodup }

end Owned

/-- Nothing is owned before the first instruction. -/
theorem owned_start {id : String} {signature : Option Signature} {declared : List ValueType}
    {strategy : Strategy} : (start id signature declared strategy).Owned [] where
  sound := .empty _
  size := by simp [start]
  forced := by simp [start]
  refs h := by simp [start, Registers.get?] at h
  stacked h := by simp [start] at h
  bound h := by simp [start, Array.getElem?_replicate] at h
  named h := by simp [start, Registers.get?] at h
  kept h := by simp [start, reserved] at h
  nodup := by simp [start, reserved]
  waiting h := by simp [start] at h

end Moonstack.Frame
