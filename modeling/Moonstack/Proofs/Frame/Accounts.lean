import Moonstack.Proofs.Frame.Moved

/-!
# No register is lost

`Frame.Owned` says that what refers to a register is right about it. This is the other direction:
every live register has somebody who will free it. `Frame.Accounted f held` says that a live
register without stack entries is kept for a value to come, or is the register of a local and waits.
The list `held` also names registers of locals that the instruction under way has in hand.
-/

namespace Moonstack.Frame

/-- A live register that is not on the stack is kept for a value to come, is in hand, or waits as the
register of a local. -/
def Accounted (f : Frame) (held : List RegisterId) : Prop :=
  ∀ i a, f.registers.get? i = some a → a.live = true → a.stackRefs = 0 →
    i ∈ f.reserved held ∨ (a.boundTo.isSome = true ∧ i ∈ f.pending)

namespace Accounted

variable {f g : Frame} {held held' : List RegisterId} {id : RegisterId} (h : f.Accounted held)
include h

theorem congr (hr : g.registers = f.registers) (hb : g.blocks = f.blocks)
    (hp : g.pending = f.pending) : g.Accounted held := by
  unfold Accounted reserved
  rw [hr, hb, hp]
  exact h

theorem mono (hs : held ⊆ held') : f.Accounted held' := by
  intro i a hi hl hz
  refine (h i a hi hl hz).imp_left fun hm => ?_
  exact (List.mem_append.1 hm).elim (List.mem_append_left _)
    fun hm => List.mem_append_right _ (hs hm)

theorem noteIf (b : Bool) (text : String) : (f.noteIf b text).Accounted held := by
  rw [noteIf_eq]
  exact h.congr rfl rfl rfl

theorem peek (n : Nat) : (f.peek n).2.Accounted held :=
  peek_cases n h fun _ => h.congr rfl rfl rfl

omit h in
/-- A register in hand may be let go of if it is accounted for otherwise. -/
theorem release (h : f.Accounted (id :: held))
    (hid : ∀ a, f.registers.get? id = some a → a.live = true → a.stackRefs = 0 →
      a.boundTo.isSome = true ∧ id ∈ f.pending) : f.Accounted held := by
  intro i a hi hl hz
  rcases h i a hi hl hz with hm | hm
  · rcases List.mem_append.1 hm with hm | hm
    · exact .inl (List.mem_append_left _ hm)
    · rcases List.mem_cons.1 hm with rfl | hm
      · exact .inr (hid a hi hl hz)
      · exact .inl (List.mem_append_right _ hm)
  · exact .inr hm

/-- Registers other than the one in hand may stay as they are. -/
theorem modified (hid : id ∈ held) {registers : Registers}
    (hr : ∀ i, i ≠ id → registers.get? i = f.registers.get? i) :
    { f with registers }.Accounted held := by
  intro i a hi hl hz
  by_cases he : i = id
  · subst he
    exact .inl (List.mem_append_right _ hid)
  · rw [hr i he] at hi
    exact h i a hi hl hz

/-- A register that has just been made is in hand. -/
theorem made {b first last : Option Nat} (hr : g.registers = (f.registers.create b first last).2)
    (hb : g.blocks = f.blocks) (hp : g.pending = f.pending) :
    g.Accounted (f.registers.arena.size :: held) := by
  have hm := h.mono (List.subset_cons_self f.registers.arena.size held)
  refine (hm.modified List.mem_cons_self fun i hi => ?_).congr hr hb hp
  rw [get?_create, if_neg hi]

theorem temporary : f.temporary.2.Accounted (f.temporary.1 :: held) := by
  rw [temporary_eq,
    show f.registers.createTemporary.1 = f.registers.arena.size from create_fst _ _ _ _]
  exact h.made rfl rfl rfl

theorem localRegister (index : Nat) :
    (f.localRegister index).2.Accounted ((f.localRegister index).1 :: held) :=
  localRegister_cases (fun _ => h.mono (List.subset_cons_self _ held)) fun _ => h.made rfl rfl rfl

omit h in
/-- **An attempt to free a register in hand** frees it, or leaves it to the stack or to the queue.
-/
theorem freed (h : f.Accounted (id :: held)) : (f.freed id).Accounted held := by
  unfold Frame.freed
  cases hi : f.registers.get? id with
  | none => exact h.release fun a ha => by rw [hi] at ha; cases ha
  | some r =>
    simp only
    split
    · rename_i hr
      refine h.release fun a ha hl hz => ?_
      rw [hi] at ha
      cases ha
      simp [hl, hz] at hr
    · split
      · rename_i ho
        have hbound : r.boundTo.isSome = true := (Bool.and_eq_true_iff.1 ho).1
        split
        · rename_i hc
          refine h.release fun a ha _ _ => ?_
          rw [hi] at ha
          cases ha
          exact ⟨hbound, by simpa using hc⟩
        · have hp : { f with pending := f.pending ++ [id] }.Accounted (id :: held) :=
            fun i a hi hl hz => (h i a hi hl hz).imp_right fun hm =>
              ⟨hm.1, List.mem_append_left _ hm.2⟩
          refine hp.release fun a ha _ _ => ?_
          rw [show f.registers.get? id = some a from ha] at hi
          cases hi
          exact ⟨hbound, List.mem_append_right _ List.mem_cons_self⟩
      · have hm : { f with registers := f.registers.freed id r }.Accounted (id :: held) :=
          h.modified List.mem_cons_self fun i hne => by rw [get?_freed, if_neg (Ne.symm hne)]
        rw [surrender_eq]
        refine (hm.release fun a ha hl _ => ?_).congr rfl rfl rfl
        have hd : (f.registers.freed id r).get? id = some { r with live := false } := by
          rw [get?_freed, if_pos rfl, hi]
          rfl
        cases hd.symm.trans ha
        cases hl

omit h in
theorem freedAll {ids : List RegisterId} (h : f.Accounted (ids ++ held)) :
    (f.freedAll ids).Accounted held := by
  induction ids generalizing f with
  | nil => exact h
  | cons id rest ih => exact ih (f := f.freed id) (freed h)

theorem drained : f.drained.Accounted held := by
  -- the registers that waited are in hand while the queue is built anew
  have hc : { f with pending := [] }.Accounted (f.pending ++ held) := by
    intro i a hi hl hz
    refine .inl ?_
    rcases h i a hi hl hz with hm | hm
    · exact (List.mem_append.1 hm).elim (List.mem_append_left _)
        fun hm => List.mem_append_right _ (List.mem_append_right _ hm)
    · exact List.mem_append_right _ (List.mem_append_left _ hm.2)
  exact hc.freedAll

theorem accessed (index : Nat) : (f.accessed index).Accounted held :=
  accessed_cases h fun _ => (h.mono (List.subset_cons_self _ held)).freed

omit h in
/-- The access ends to a local whose register is in hand. -/
theorem accessedHeld (h : f.Accounted (id :: held)) {index : Nat}
    (hb : f.locals[index]? = some (some id)) : (f.accessed index).Accounted held := by
  unfold Frame.accessed
  rw [hb]
  exact h.freed

theorem pushLiteral (l : Literal) : (f.pushLiteral l).Accounted held := by
  rw [pushLiteral_eq]
  exact h.congr rfl rfl rfl

omit h in
theorem pushRegister (h : f.Accounted (id :: held)) : (f.pushRegister id).Accounted held := by
  have hm : { f with
      registers := f.registers.modify id fun r => { r with stackRefs := r.stackRefs + 1 }
      }.Accounted (id :: held) :=
    h.modified List.mem_cons_self fun i hne => by rw [Registers.get?_modify, if_neg (Ne.symm hne)]
  rw [pushRegister_eq]
  refine (hm.release fun a ha _ hz => ?_).congr rfl rfl rfl
  simp only [Registers.get?_modify, if_true] at ha
  obtain ⟨b, -, rfl⟩ := Option.map_eq_some_iff.1 ha
  cases hz

theorem pushLiterals (literals : List Literal) :
    (literals.foldl Frame.pushLiteral f).Accounted held := by
  induction literals generalizing f with
  | nil => exact h
  | cons l rest ih => exact ih (h.pushLiteral l)

omit h in
theorem pushAll {ids : List RegisterId} (h : f.Accounted (ids ++ held)) :
    (ids.foldl Frame.pushRegister f).Accounted held := by
  induction ids generalizing f with
  | nil => exact h
  | cons id rest ih => exact ih (f := f.pushRegister id) (pushRegister h)

theorem released (id : RegisterId) : (f.released id).Accounted held := by
  have hm : (f.unreferenced id).Accounted (id :: held) :=
    (h.mono (List.subset_cons_self id held)).modified List.mem_cons_self fun i hne => by
      rw [Registers.get?_modify, if_neg (Ne.symm hne)]
  unfold Frame.released
  split
  · exact hm.freed
  · rename_i hr
    refine hm.release fun a ha _ hz => ?_
    rw [ha] at hr
    simp [hz] at hr

theorem popped : f.popped.Accounted held := by
  refine Accounted.noteIf ?_ _ _
  have hc (stack : List Entry) : { f with stack }.Accounted held := h.congr rfl rfl rfl
  exact dropped_cases h (fun _ => h.congr rfl rfl rfl) (fun _ => hc _) fun _ => (hc _).released _

theorem poppedMany (n : Nat) : (f.poppedMany n).Accounted held := by
  induction n generalizing f with
  | zero => exact h
  | succ n ih => exact ih h.popped

omit h in
/-- The copy that takes over the stack entries of a register has stack entries. -/
theorem detachAliases (h : f.Accounted (id :: held)) :
    (f.detachAliases id).2.Accounted (id :: held) := by
  unfold Frame.detachAliases
  simp only
  generalize ((f.registers.get? id).map Register.stackRefs).getD 0 = refs
  split
  · exact h
  · rename_i hrefs
    have hn : f.registers.createTemporary.1 = f.registers.arena.size := create_fst _ _ _ _
    intro i a hi hl hz
    simp only [hn, Registers.get?_modify] at hi
    split at hi
    · obtain ⟨b, -, rfl⟩ := Option.map_eq_some_iff.1 hi
      exact absurd hz hrefs
    · rename_i hcopy
      split at hi
      · rename_i he
        exact .inl (List.mem_append_right _ (he ▸ List.mem_cons_self))
      · rw [Registers.createTemporary, get?_create, if_neg (Ne.symm hcopy)] at hi
        exact h i a hi hl hz

theorem openBlock (name : BlockName) (result : Option ValueType) :
    (f.openBlock name result).2.Accounted held := by
  cases result with
  | none => exact h
  | some t =>
    intro i a hi hl hz
    exact (h.temporary i a hi hl hz).imp_left fun hm => List.perm_middle.subset hm

/-- The register of a block that is forgotten is in hand again. -/
theorem dropBlock {b : Block} {outer : List Block} (hb : f.blocks = b :: outer) :
    f.dropBlock.Accounted (b.register.toList ++ held) := by
  intro i a hi hl hz
  refine (h i a hi hl hz).imp_left fun hm => ?_
  simp only [reserved, Frame.dropBlock, hb, List.tail_cons, List.mem_append, List.mem_filterMap,
    List.mem_cons, exists_eq_or_imp, Option.mem_toList] at hm ⊢
  rcases hm with (hm | hm) | hm
  · exact .inr (.inl hm)
  · exact .inl hm
  · exact .inr (.inr hm)

/-- Blocks with the same registers account for the same. -/
theorem reblock {blocks : List Block}
    (hb : blocks.filterMap Block.register = f.blocks.filterMap Block.register) :
    { f with blocks }.Accounted held := by
  intro i a hi hl hz
  rw [reserved, hb]
  exact h i a hi hl hz

end Accounted

/-- What waits is live, has no stack entry and is the register of a local whose value is needed
later. -/
def Punctual (f : Frame) : Prop :=
  ∀ i ∈ f.pending, ∃ a, f.registers.get? i = some a ∧ a.live = true ∧ a.stackRefs = 0 ∧
    f.outlives a = true

namespace Punctual

variable {f : Frame} (h : f.Punctual)

theorem of_pending (h : f.pending = []) : f.Punctual := by
  intro i hi
  rw [h] at hi
  cases hi

include h

theorem freed (id : RegisterId) : (f.freed id).Punctual := by
  refine freed_cases h (fun {r} hid hr ho _ i hi => ?_) fun {r} hid _ ho => ?_
  · rcases List.mem_append.1 hi with hi | hi
    · exact h i hi
    · rw [List.mem_singleton.1 hi]
      exact ⟨r, hid, hr.1, hr.2, ho⟩
  · rw [surrender_eq]
    intro i hi
    obtain ⟨a, ha, hl, hz, hlast⟩ := h i hi
    -- what waits is not the register that is freed
    have hne : id ≠ i := by
      rintro rfl
      cases hid.symm.trans ha
      cases ho.symm.trans hlast
    refine ⟨a, ?_, hl, hz, hlast⟩
    rw [get?_freed, if_neg hne]
    exact ha

theorem freedAll (ids : List RegisterId) : (f.freedAll ids).Punctual :=
  List.foldlRecOn ids _ h fun _ hg id _ => hg.freed id

theorem accessed (index : Nat) : (f.accessed index).Punctual :=
  accessed_cases h fun _ => h.freed _

end Punctual

/-- Once the queue has been looked through, what is in it waits for a reason. -/
theorem punctual_drained (f : Frame) : f.drained.Punctual :=
  (Punctual.of_pending (f := { f with pending := [] }) rfl).freedAll f.pending

end Moonstack.Frame
