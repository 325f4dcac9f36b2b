import Moonstack.Function.Frame

/-!
# Frame operations never fail

Freeing a register can fail in two ways, and a frame asks for neither: `Frame.tryFree` looks at the
register first. Each operation that goes through it is therefore a function on frames.
-/

namespace Moonstack

namespace Registers

@[simp]
theorem get?_modify (r : Registers) (id : RegisterId) (g : Register → Register) (j : RegisterId) :
    (r.modify id g).get? j = if id = j then (r.get? j).map g else r.get? j := by
  simp only [get?, modify, Array.getElem?_modify]

theorem get?_lt {r : Registers} {id : RegisterId} {register : Register}
    (h : r.get? id = some register) : id < r.arena.size :=
  (Array.getElem?_eq_some_iff.1 h).1

/-- The registers after a live one has been freed. -/
def freed (r : Registers) (id : RegisterId) (register : Register) : Registers :=
  { r.modify id fun register => { register with live := false } with
    liveCount := r.liveCount - 1
    freeSlots := if r.strategy = .pooled then insertOnce register.slot r.freeSlots else r.freeSlots }

theorem retire_eq {r : Registers} {id : RegisterId} {register : Register}
    (h : r.get? id = some register) (hl : register.live = true) :
    r.retire id = .ok () (r.freed id register) := by
  simp only [retire, h, hl, freed]
  rfl

theorem free_eq {r : Registers} {id : RegisterId} {register : Register}
    (h : r.get? id = some register) (hl : register.live = true) :
    r.free id = .ok (r.freed id register) := by
  rw [free, retire_eq h hl]

end Registers

namespace Frame

section

variable (f : Frame)

@[simp]
theorem registers_noteIf (b : Bool) (text : String) :
    (f.noteIf b text).registers = f.registers := by
  unfold noteIf
  split <;> rfl

@[simp]
theorem registers_unbind (index : Option Nat) (id : RegisterId) :
    (f.unbind index id).registers = f.registers := by
  cases index <;> rfl

/-- The frame once a register that nothing needs any more has been freed. -/
def surrender (f : Frame) (id : RegisterId) (r : Register) : Frame :=
  let g := f.unbind r.boundTo id
  let g := g.noteIf g.debug.registers (g.freeNote id r)
  { g with registers := g.registers.freed id r }

/-- The frame after an attempt to free a register. -/
def freed (f : Frame) (id : RegisterId) : Frame :=
  match f.registers.get? id with
  | none => f
  | some r =>
    if !r.live || r.stackRefs != 0 then f
    else if f.outlives r then
      if f.pending.contains id then f else { f with pending := f.pending ++ [id] }
    else f.surrender id r

/-- **Freeing a register never fails.** -/
theorem tryFree_eq (id : RegisterId) : ∃ b, f.tryFree id = .ok (b, f.freed id) := by
  unfold tryFree freed
  cases h : f.registers.get? id with
  | none => exact ⟨false, rfl⟩
  | some r =>
    simp only
    split
    · exact ⟨false, rfl⟩
    · rename_i hr
      simp only [Bool.not_eq_true, Bool.or_eq_false_iff, Bool.not_eq_false'] at hr
      split
      · exact ⟨false, rfl⟩
      · refine ⟨true, ?_⟩
        have hg : ((f.unbind r.boundTo id).noteIf (f.unbind r.boundTo id).debug.registers
            ((f.unbind r.boundTo id).freeNote id r)).registers.get? id = some r := by
          simpa using h
        rw [Registers.free_eq hg hr.1]
        rfl

/-- The frame after an attempt to free each of the given registers. -/
def freedAll (f : Frame) (ids : List RegisterId) : Frame := ids.foldl freed f

theorem tryFreeAll_eq (ids : List RegisterId) : f.tryFreeAll ids = .ok (f.freedAll ids) := by
  induction ids generalizing f with
  | nil => rfl
  | cons id rest ih =>
    obtain ⟨b, hb⟩ := f.tryFree_eq id
    simp only [tryFreeAll, hb]
    exact ih (f.freed id)

/-- The frame after a look at the registers that wait. -/
def drained (f : Frame) : Frame := { f with pending := [] }.freedAll f.pending

theorem drainPending_eq : f.drainPending = .ok f.drained :=
  tryFreeAll_eq _ _

/-- The frame after an access to a local has ended. -/
def accessed (f : Frame) (index : Nat) : Frame :=
  match (f.locals[index]?).join with
  | none => f
  | some id => f.freed id

theorem afterLocalAccess_eq (index : Nat) : f.afterLocalAccess index = .ok (f.accessed index) := by
  unfold afterLocalAccess accessed
  cases (f.locals[index]?).join with
  | none => rfl
  | some id =>
    obtain ⟨b, hb⟩ := f.tryFree_eq id
    simp only [hb]
    rfl

/-- The frame with one stack reference of a register taken back. -/
def unreferenced (f : Frame) (id : RegisterId) : Frame :=
  { f with registers := f.registers.modify id fun r => { r with stackRefs := r.stackRefs - 1 } }

/-- The frame after a stack entry of a register is gone. -/
def released (f : Frame) (id : RegisterId) : Frame :=
  if ((f.unreferenced id).registers.get? id).any fun r => r.stackRefs == 0 then
    (f.unreferenced id).freed id
  else f.unreferenced id

theorem release_eq (id : RegisterId) : f.release id = .ok (f.released id) := by
  obtain ⟨b, hb⟩ := (f.unreferenced id).tryFree_eq id
  change (if ((f.unreferenced id).registers.get? id).any fun r => r.stackRefs == 0 then
    ((f.unreferenced id).tryFree id >>= fun p => pure p.2) else pure (f.unreferenced id)) = _
  unfold released
  split
  · rw [hb]
    rfl
  · rfl

/-- The operand that a pop gives. -/
def top (f : Frame) : Operand :=
  if f.depth ≤ f.floor then .missing
  else
    match f.stack with
    | [] => .missing
    | e :: _ => f.operand e

/-- An operand in a slot is that of a register on the stack. -/
theorem register_of_top {f : Frame} {n : Nat} (h : f.top = .slot n) :
    ∃ id, .register id ∈ f.stack ∧ f.registers.slotOf id = n := by
  unfold top at h
  split at h
  · cases h
  · split at h
    · cases h
    · rename_i e rest hs
      cases e with
      | literal l => cases h
      | register id => exact ⟨id, hs ▸ List.mem_cons_self, Operand.slot.inj h⟩

/-- The frame after the top entry has been taken off, before the debug comment. -/
def dropped (f : Frame) : Frame :=
  if f.depth ≤ f.floor then f.warn "pop below block floor"
  else
    match f.stack with
    | [] => f
    | .literal _ :: rest => { f with stack := rest }
    | .register id :: rest => { f with stack := rest }.released id

theorem popEntry_eq : f.popEntry = .ok (f.top, f.dropped) := by
  unfold popEntry top dropped
  split
  · rfl
  · cases f.stack with
    | nil => rfl
    | cons e rest =>
      cases e with
      | literal l => rfl
      | register id =>
        simp only [release_eq]
        rfl

/-- The frame after a pop. -/
def popped (f : Frame) : Frame :=
  f.dropped.noteIf f.dropped.debug.stack s!"pop {f.top.text}"

/-- **A pop never fails.** -/
theorem pop_eq : f.pop = .ok (f.top, f.popped) := by
  unfold pop popped
  rw [popEntry_eq]
  rfl

end

/-- The frame after a number of pops. -/
def poppedMany (f : Frame) : Nat → Frame
  | 0 => f
  | n + 1 => f.popped.poppedMany n

/-- The operands that a number of pops give, in the order they were pushed. -/
def tops (f : Frame) : Nat → List Operand
  | 0 => []
  | n + 1 => f.popped.tops n ++ [f.top]

/-- The frame after a look at the top operands. -/
def peekedMany (f : Frame) : Nat → Frame
  | 0 => f
  | n + 1 => (f.peek n).2.peekedMany n

/-- The operands that a look at the top of the stack gives, in the order they were pushed. -/
def peeks (f : Frame) : Nat → List Operand
  | 0 => []
  | n + 1 => (f.peek n).1 :: (f.peek n).2.peeks n

end Frame

end Moonstack
