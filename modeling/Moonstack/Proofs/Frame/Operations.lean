import Moonstack.Proofs.Frame.Moved

/-!
# Runs of frame operations

The writing of a function asks for frame operations in a certain order. Here they come in any order:
an `Operation` is a request, `Frame.performAll` answers a list of them, and `Frame.admitsAll` says
that no request names a dead register or a local that is not declared. No such run fails, and at its
end the parts of the frame agree (`consistent_performAll`).

In any order a register that a block keeps for its value may be freed or pushed as well, so of
`Frame.Owned` only what does not concern these registers is kept: `Frame.Orderly` is the invariant
of a run, and it speaks about the frame with no such registers (`Frame.unreserved`).
-/

namespace Moonstack.Frame

/-- What can be asked of a frame. -/
inductive Operation where
  | pushLiteral (l : Literal)
  | pushRegister (id : RegisterId)
  | pop
  | peek (n : Nat)
  | temporary
  | localRegister (index : Nat)
  | afterLocalAccess (index : Nat)
  | tryFree (id : RegisterId)
  | drainPending
  | detachAliases (id : RegisterId)
  | tick
  | openBlock (name : BlockName) (result : Option ValueType)
  | dropBlock

def perform (f : Frame) : Operation → Except RegisterError Frame
  | .pushLiteral l => .ok (f.pushLiteral l)
  | .pushRegister id => .ok (f.pushRegister id)
  | .pop => (·.2) <$> f.pop
  | .peek n => .ok (f.peek n).2
  | .temporary => .ok f.temporary.2
  | .localRegister index => .ok (f.localRegister index).2
  | .afterLocalAccess index => f.afterLocalAccess index
  | .tryFree id => (·.2) <$> f.tryFree id
  | .drainPending => f.drainPending
  | .detachAliases id => .ok (f.detachAliases id).2
  | .tick => .ok f.tick
  | .openBlock name result => .ok (f.openBlock name result).2
  | .dropBlock => .ok f.dropBlock

def isLive (f : Frame) (id : RegisterId) : Bool := (f.registers.get? id).any Register.live

/-- May an operation be asked for? Only live registers are pushed and detached, and only declared
locals have registers. -/
def admits (f : Frame) : Operation → Bool
  | .pushRegister id | .detachAliases id => f.isLive id
  | .localRegister index => index < f.localTypes.length
  | _ => true

def performAll (f : Frame) : List Operation → Except RegisterError Frame
  | [] => .ok f
  | op :: rest => do
    let f ← f.perform op
    f.performAll rest

/-- May the operations of a list be asked for, each in the frame that the ones before it leave? -/
def admitsAll (f : Frame) : List Operation → Bool
  | [] => true
  | op :: rest => f.admits op &&
    match f.perform op with
    | .ok g => g.admitsAll rest
    | .error _ => true

/-- Reference counts, bindings, slots, waiting registers and the floor agree. -/
structure Consistent (f : Frame) : Prop where
  /-- a reference count is the number of stack entries -/
  refs : ∀ id r, f.registers.get? id = some r → r.stackRefs = f.stack.count (.register id)
  stacked : ∀ id, .register id ∈ f.stack → ∃ r, f.registers.get? id = some r ∧ r.live = true
  /-- a local is bound to a live register that is made for it -/
  bound : ∀ l id, f.locals[l]? = some (some id) →
    ∃ r, f.registers.get? id = some r ∧ r.live = true ∧ r.boundTo = some l
  slots : ∀ i j a b, f.registers.get? i = some a → f.registers.get? j = some b → a.live = true →
    b.live = true → i ≠ j → a.slot ≠ b.slot
  /-- live registers hold slots that have been given out -/
  slot_lt : ∀ id r, f.registers.get? id = some r → r.live = true → r.slot < f.registers.slotCount
  pending : f.pending.Nodup
  /-- the stack is not below the floor of the innermost block -/
  floor : ∀ b ∈ f.blocks.head?, b.enterDepth ≤ f.depth

/-- The frame as if no open block kept a register for its value and no local were to be zeroed. -/
def unreserved (f : Frame) : Frame :=
  { f with
    blocks := f.blocks.map fun b => { b with register := none }
    lifetimes := { f.lifetimes with forced := [] } }

section

variable (f : Frame)

@[simp]
theorem floor_unreserved : f.unreserved.floor = f.floor := by
  unfold floor unreserved
  cases f.blocks <;> rfl

theorem depth_unreserved : f.unreserved.depth = f.depth := rfl

theorem stack_unreserved : f.unreserved.stack = f.stack := rfl

@[simp]
theorem reserved_unreserved : f.unreserved.reserved [] = [] := by
  simp [reserved, unreserved, List.filterMap_map]

theorem unreserved_noteIf (b : Bool) (text : String) :
    (f.noteIf b text).unreserved = f.unreserved.noteIf b text := by
  cases b <;> rfl

theorem unreserved_localRegister (index : Nat) :
    (f.localRegister index).2.unreserved = (f.unreserved.localRegister index).2 := by
  unfold localRegister
  rw [show f.unreserved.locals = f.locals from rfl]
  split
  · rfl
  · exact unreserved_noteIf _ _ _

theorem unreserved_freed (id : RegisterId) : (f.freed id).unreserved = f.unreserved.freed id := by
  unfold freed
  rw [show f.unreserved.registers = f.registers from rfl,
    show f.unreserved.pending = f.pending from rfl,
    show f.unreserved.outlives = f.outlives from rfl]
  split
  · rfl
  · split
    · rfl
    · split
      · split <;> rfl
      · unfold surrender
        simp only [noteIf_eq, unbind_eq]
        rfl

theorem unreserved_released (id : RegisterId) :
    (f.released id).unreserved = f.unreserved.released id := by
  unfold released
  rw [show (f.unreserved.unreferenced id).registers = (f.unreferenced id).registers from rfl]
  split
  · exact unreserved_freed _ _
  · rfl

theorem top_unreserved : f.unreserved.top = f.top := by
  unfold top
  rw [floor_unreserved, depth_unreserved, stack_unreserved]
  split
  · rfl
  · split
    · rfl
    · rename_i e _ _
      cases e <;> rfl

theorem unreserved_dropped : f.dropped.unreserved = f.unreserved.dropped := by
  unfold dropped
  rw [floor_unreserved, depth_unreserved, stack_unreserved]
  split
  · rfl
  · split
    · rfl
    · rfl
    · exact unreserved_released _ _

theorem unreserved_popped : f.popped.unreserved = f.unreserved.popped := by
  unfold popped
  rw [unreserved_noteIf, top_unreserved, ← unreserved_dropped]
  rfl

theorem unreserved_pushLiteral (l : Literal) :
    (f.pushLiteral l).unreserved = f.unreserved.pushLiteral l := by
  simp only [pushLiteral, noteIf_eq]
  rfl

theorem unreserved_pushRegister (id : RegisterId) :
    (f.pushRegister id).unreserved = f.unreserved.pushRegister id := by
  simp only [pushRegister, noteIf_eq]
  rfl

theorem unreserved_peek (n : Nat) : (f.peek n).2.unreserved = (f.unreserved.peek n).2 := by
  unfold peek
  rw [floor_unreserved, depth_unreserved, stack_unreserved]
  split
  · rfl
  · split <;> rfl

theorem unreserved_detachAliases (id : RegisterId) :
    (f.detachAliases id).2.unreserved = (f.unreserved.detachAliases id).2 := by
  unfold detachAliases
  simp only [show f.unreserved.registers = f.registers from rfl]
  split <;> rfl

end

theorem pending_freed {f : Frame} (id : RegisterId) (h : f.pending.Nodup) :
    (f.freed id).pending.Nodup := by
  refine freed_cases h (fun _ _ _ hn => ?_) fun {r} _ _ _ => ?_
  · refine List.nodup_append.2 ⟨h, by simp, fun i hi j hj => ?_⟩
    rw [List.mem_singleton.1 hj]
    exact fun he => hn (he ▸ hi)
  · rw [surrender_eq]
    exact h

theorem pending_popped {f : Frame} (h : f.pending.Nodup) : f.popped.pending.Nodup := by
  rw [popped, noteIf_eq]
  exact dropped_cases h (fun _ => h) (fun _ => h) fun _ =>
    released_cases h (pending_freed (f := .unreferenced _ _) _ h)

/-- What every operation keeps, in whatever order they come. -/
structure Orderly (f : Frame) : Prop where
  owned : f.unreserved.Owned []
  pending : f.pending.Nodup
  floor_le : f.floor ≤ f.depth
  /-- an inner block is opened at least as deep as the blocks around it -/
  nested : f.blocks.Pairwise fun inner outer => outer.enterDepth ≤ inner.enterDepth

namespace Orderly

variable {f g : Frame} {id : RegisterId}

variable (h : f.Orderly)
include h

/-- An operation that neither opens nor drops a block. -/
theorem moved {n : Nat} (hm : Moved n f g) (ho : g.unreserved.Owned []) (hp : g.pending.Nodup) :
    g.Orderly where
  owned := ho
  pending := hp
  floor_le := hm.floor_le h.floor_le
  nested := hm.blocks ▸ h.nested

theorem pushLiteral (l : Literal) : (f.pushLiteral l).Orderly := by
  refine h.moved (.pushLiteral f l) ?_ ?_
  · rw [unreserved_pushLiteral]
    exact h.owned.pushLiteral l
  · rw [Frame.pushLiteral, noteIf_eq]
    exact h.pending

theorem pushRegister (hl : f.isLive id = true) : (f.pushRegister id).Orderly := by
  obtain ⟨a, ha, hlive⟩ := (Option.any_eq_true _ _).1 hl
  refine h.moved (.pushRegister f id) ?_ ?_
  · rw [unreserved_pushRegister]
    exact h.owned.pushRegister ha hlive (by simp)
  · rw [Frame.pushRegister, noteIf_eq]
    exact h.pending

theorem popped : f.popped.Orderly := by
  refine h.moved (.popped f) ?_ (pending_popped h.pending)
  rw [unreserved_popped]
  exact h.owned.popped

theorem peek (n : Nat) : (f.peek n).2.Orderly := by
  refine h.moved (.peek f n) ?_ ?_
  · rw [unreserved_peek]
    exact h.owned.peek n
  · exact peek_cases n h.pending fun _ => h.pending

theorem temporary : f.temporary.2.Orderly := by
  refine h.moved (.temporary f) ?_ ?_
  · rw [Frame.temporary, unreserved_noteIf]
    exact h.owned.temporary.forget.1
  · rw [temporary_eq]
    exact h.pending

theorem localRegister {index : Nat} (hi : index < f.localTypes.length) :
    (f.localRegister index).2.Orderly := by
  refine h.moved (.localRegister f index) ?_ ?_
  · rw [unreserved_localRegister]
    exact (h.owned.localRegister hi).1
  · unfold Frame.localRegister
    split
    · exact h.pending
    · simp only [noteIf_eq]
      exact h.pending

theorem freed (id : RegisterId) : (f.freed id).Orderly := by
  refine h.moved (.freed f id) ?_ (pending_freed id h.pending)
  rw [unreserved_freed]
  exact h.owned.freed (by simp)

theorem freedAll (ids : List RegisterId) : (f.freedAll ids).Orderly :=
  List.foldlRecOn ids _ h fun _ hg id _ => hg.freed id

theorem drained : f.drained.Orderly := by
  have hc : { f with pending := [] }.Orderly :=
    { owned := { h.owned with waiting := fun hm => by cases hm }
      pending := List.nodup_nil
      floor_le := h.floor_le
      nested := h.nested }
  exact hc.freedAll f.pending

theorem accessed (index : Nat) : (f.accessed index).Orderly :=
  accessed_cases h fun _ => h.freed _

theorem detachAliases (hl : f.isLive id = true) : (f.detachAliases id).2.Orderly := by
  obtain ⟨a, ha, -⟩ := (Option.any_eq_true _ _).1 hl
  refine h.moved (.detachAliases f id) ?_ ?_
  · rw [unreserved_detachAliases]
    exact (h.owned.detached ha).1
  · unfold Frame.detachAliases
    simp only
    split <;> exact h.pending

theorem tick : f.tick.Orderly :=
  h.moved (.tick f) (h.owned.congr rfl rfl rfl rfl rfl rfl rfl) h.pending

/-- A block that is opened is at least as deep as the blocks that are open. -/
theorem opened (name : BlockName) (result : Option ValueType) (register : Option RegisterId) :
    { f with blocks := ⟨name, f.depth, result, register, false⟩ :: f.blocks }.Orderly where
  owned := h.owned.reblock (by simp [unreserved, List.filterMap_map])
  pending := h.pending
  floor_le := Nat.le_refl _
  nested := by
    refine List.pairwise_cons.2 ⟨fun b hb => ?_, h.nested⟩
    have hfloor := h.floor_le
    have hnested := h.nested
    unfold floor at hfloor
    cases hblocks : f.blocks with
    | nil => simp [hblocks] at hb
    | cons inner outer =>
      rw [hblocks] at hb hfloor hnested
      rcases List.mem_cons.1 hb with rfl | hb
      · exact hfloor
      · exact Nat.le_trans ((List.pairwise_cons.1 hnested).1 b hb) hfloor

theorem openBlock (name : BlockName) (result : Option ValueType) :
    (f.openBlock name result).2.Orderly := by
  cases result with
  | none => exact h.opened name none none
  | some t => exact h.temporary.opened name (some t) (some f.temporary.1)

theorem dropBlock : f.dropBlock.Orderly where
  owned := h.owned.reblock (by simp [unreserved, Frame.dropBlock, List.filterMap_map, -List.map_tail])
  pending := h.pending
  floor_le := by
    have hfloor := h.floor_le
    have hnested := h.nested
    unfold floor at hfloor ⊢
    unfold Frame.dropBlock
    cases hblocks : f.blocks with
    | nil => simp [depth]
    | cons inner outer =>
      rw [hblocks] at hfloor hnested
      cases outer with
      | nil => simp [depth]
      | cons b rest =>
        exact Nat.le_trans ((List.pairwise_cons.1 hnested).1 b List.mem_cons_self) hfloor
  nested := h.nested.sublist (List.tail_sublist _)

/-- No operation that may be asked for fails, and each keeps the frame orderly. -/
theorem perform {op : Operation} (ha : f.admits op = true) :
    ∃ g, f.perform op = .ok g ∧ g.Orderly := by
  cases op with
  | pushLiteral l => exact ⟨_, rfl, h.pushLiteral l⟩
  | pushRegister id => exact ⟨_, rfl, h.pushRegister ha⟩
  | pop => exact ⟨f.popped, by rw [Frame.perform, pop_eq]; rfl, h.popped⟩
  | peek n => exact ⟨_, rfl, h.peek n⟩
  | temporary => exact ⟨_, rfl, h.temporary⟩
  | localRegister index => exact ⟨_, rfl, h.localRegister (of_decide_eq_true ha)⟩
  | afterLocalAccess index => exact ⟨_, afterLocalAccess_eq f index, h.accessed index⟩
  | tryFree id =>
    obtain ⟨b, hb⟩ := f.tryFree_eq id
    exact ⟨f.freed id, by rw [Frame.perform, hb]; rfl, h.freed id⟩
  | drainPending => exact ⟨_, drainPending_eq f, h.drained⟩
  | detachAliases id => exact ⟨_, rfl, h.detachAliases ha⟩
  | tick => exact ⟨_, rfl, h.tick⟩
  | openBlock name result => exact ⟨_, rfl, h.openBlock name result⟩
  | dropBlock => exact ⟨_, rfl, h.dropBlock⟩

theorem performAll {ops : List Operation} (ha : f.admitsAll ops = true) :
    ∃ g, f.performAll ops = .ok g ∧ g.Orderly := by
  induction ops generalizing f with
  | nil => exact ⟨f, rfl, h⟩
  | cons op rest ih =>
    obtain ⟨hop, hrest⟩ := Bool.and_eq_true_iff.1 ha
    obtain ⟨g, hg, hgo⟩ := h.perform hop
    rw [hg] at hrest
    obtain ⟨k, hk, hko⟩ := ih hgo hrest
    refine ⟨k, ?_, hko⟩
    rw [Frame.performAll, hg]
    exact hk

theorem consistent : f.Consistent where
  refs _ _ hr := h.owned.refs hr
  stacked _ hm := h.owned.stacked hm
  bound _ _ hl := by
    obtain ⟨r, hr, hlive, hbound, -⟩ := h.owned.bound hl
    exact ⟨r, hr, hlive, hbound⟩
  slots _ _ _ _ hi hj ha hb hne hs := hne (h.owned.sound.slot_inj hi hj ha hb hs)
  slot_lt _ _ hr _ := h.owned.sound.slot_lt hr
  pending := h.pending
  floor b hb := by
    have hfloor := h.floor_le
    unfold Frame.floor at hfloor
    cases hblocks : f.blocks with
    | nil => simp [hblocks] at hb
    | cons inner outer =>
      rw [hblocks] at hb hfloor
      cases hb
      exact hfloor

end Orderly

theorem orderly_start (id : String) (signature : Option Signature) (declared : List ValueType)
    (strategy : Strategy) (lifetimes : Lifetimes) (debug : Debug) :
    { start id signature declared strategy with lifetimes, debug }.Orderly where
  owned := {
    (owned_start : (start id signature declared strategy).Owned []) with
    forced := by simp [unreserved]
    bound := by simp [start, unreserved, Array.getElem?_replicate] }
  pending := List.nodup_nil
  floor_le := Nat.le_refl _
  nested := List.Pairwise.nil

/-- Frame operations in any order, as long as none names a dead register to push or to detach or a
local that is not declared, never fail and leave a consistent frame. -/
theorem consistent_performAll (id : String) (signature : Option Signature)
    (declared : List ValueType) (strategy : Strategy) (lifetimes : Lifetimes) (debug : Debug)
    (ops : List Operation)
    (h : { start id signature declared strategy with lifetimes, debug }.admitsAll ops = true) :
    ∃ g, { start id signature declared strategy with lifetimes, debug }.performAll ops = .ok g ∧
      g.Consistent := by
  obtain ⟨g, hg, ho⟩ := (orderly_start id signature declared strategy lifetimes debug).performAll h
  exact ⟨g, hg, ho.consistent⟩

/-- A frame with a parameter whose value is needed up to step 3. -/
def oneParameter : Frame :=
  { start "f" (some ⟨[.i32], [.i32]⟩) [.i32] .pooled with
    lifetimes := { lastRefs := #[some 3, none] }, debug := {} }

/-- The parameter is pushed twice, detached inside a block, waits, and is freed when its time has
come. -/
def detachments : List Operation :=
  [.localRegister 0, .pushRegister 0, .pushRegister 0, .openBlock ⟨.block, 7⟩ (some .i32), .pop,
    .detachAliases 0, .afterLocalAccess 0, .tryFree 0, .tryFree 1, .tick, .dropBlock, .pop, .tick,
    .tick, .drainPending, .temporary, .pushRegister 3, .peek 1]

theorem consistent_performAll_detachments :
    oneParameter.admitsAll detachments = true ∧
      ∃ g, oneParameter.performAll detachments = .ok g ∧ g.Consistent :=
  ⟨by decide, consistent_performAll _ _ _ _ _ _ _ (by decide)⟩

end Moonstack.Frame
