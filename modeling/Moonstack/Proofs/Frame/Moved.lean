import Moonstack.Proofs.Frame.Ownership

/-!
# Moves of a frame

`Frame.Moved n f g` is what the writing of code does to a frame between two points at which the same
blocks are open: `g` is later than `f` by `n` counter steps, and the operand stack has not gone
below the floor of the innermost block.
-/

namespace Moonstack.Frame

theorem floor_of_blocks {f g : Frame} (h : g.blocks = f.blocks) : g.floor = f.floor := by
  rw [floor, floor, h]

/-- `g` is `n` counter steps after `f`, with the same blocks open. -/
structure Moved (n : Nat) (f g : Frame) : Prop extends Later f g where
  ticks : g.clock = f.clock + n
  blocks : g.blocks = f.blocks
  floor_le : f.floor ≤ f.depth → g.floor ≤ g.depth

namespace Moved

variable {n k : Nat} {f g h : Frame}

theorem refl (f : Frame) : Moved 0 f f where
  toLater := .refl f
  ticks := rfl
  blocks := rfl
  floor_le h := h

theorem trans (hfg : Moved n f g) (hgh : Moved k g h) : Moved (n + k) f h where
  toLater := hfg.toLater.trans hgh.toLater
  ticks := by rw [hgh.ticks, hfg.ticks, Nat.add_assoc]
  blocks := hgh.blocks.trans hfg.blocks
  floor_le hf := hgh.floor_le (hfg.floor_le hf)

theorem of_stack (hl : f.Later g) (hc : g.clock = f.clock) (hb : g.blocks = f.blocks)
    (hs : g.stack.length = f.stack.length) : Moved 0 f g where
  toLater := hl
  ticks := hc
  blocks := hb
  floor_le hf := by
    simpa only [floor, depth, hb, hs] using hf

variable (f)

theorem tick : Moved 1 f f.tick where
  toLater := f.later_tick
  ticks := rfl
  blocks := rfl
  floor_le h := h

theorem warn (message : String) : Moved 0 f (f.warn message) :=
  .of_stack (f.later_warn message) rfl rfl rfl

theorem temporary : Moved 0 f f.temporary.2 := by
  have hl := f.later_temporary
  rw [temporary_eq] at hl ⊢
  exact .of_stack hl rfl rfl rfl

theorem localRegister (index : Nat) : Moved 0 f (f.localRegister index).2 :=
  localRegister_cases (fun _ => .refl f) fun h => .of_stack (later_bind h _) rfl rfl rfl

theorem freed (id : RegisterId) : Moved 0 f (f.freed id) := by
  have hl := f.later_freed id
  obtain ⟨_, _, _, _, h, -⟩ := f.freed_eq id
  rw [h] at hl ⊢
  exact .of_stack hl rfl rfl rfl

theorem freedAll (ids : List RegisterId) : Moved 0 f (f.freedAll ids) :=
  List.foldlRecOn ids _ (.refl f) fun _ hg id _ => hg.trans (freed _ id)

theorem drained : Moved 0 f f.drained := by
  have hl : f.Later { f with pending := [] } :=
    .of_registers rfl rfl rfl rfl rfl rfl rfl fun h => ⟨_, h, rfl, rfl, rfl⟩
  exact (of_stack hl rfl rfl rfl).trans (freedAll _ _)

theorem accessed (index : Nat) : Moved 0 f (f.accessed index) :=
  accessed_cases (.refl f) fun _ => freed f _

variable {f}

theorem push (hl : f.Later g) (hc : g.clock = f.clock) (hb : g.blocks = f.blocks)
    {e : Entry} (hs : g.stack = e :: f.stack) : Moved 0 f g where
  toLater := hl
  ticks := hc
  blocks := hb
  floor_le hf := by
    have hd : g.depth = f.depth + 1 := by simp only [depth, hs, List.length_cons]
    have hfl := floor_of_blocks hb
    omega

variable (f)

theorem pushLiteral (l : Literal) : Moved 0 f (f.pushLiteral l) := by
  have hl := f.later_pushLiteral l
  rw [pushLiteral_eq] at hl ⊢
  exact .push hl rfl rfl rfl

theorem pushRegister (id : RegisterId) : Moved 0 f (f.pushRegister id) := by
  have hl := f.later_pushRegister id
  rw [pushRegister_eq] at hl ⊢
  exact .push hl rfl rfl rfl

/-- What a pop does to stack, blocks and clock. -/
theorem popped_frame :
    f.popped.stack = (if f.depth ≤ f.floor then f.stack else f.stack.tail) ∧
      f.popped.blocks = f.blocks ∧ f.popped.clock = f.clock := by
  have hreleased (g : Frame) (id : RegisterId) : (g.released id).stack = g.stack ∧
      (g.released id).blocks = g.blocks ∧ (g.released id).clock = g.clock := by
    obtain ⟨_, _, _, _, h, -⟩ := (g.unreferenced id).freed_eq id
    refine released_cases ⟨rfl, rfl, rfl⟩ ?_
    rw [h]
    exact ⟨rfl, rfl, rfl⟩
  rw [Frame.popped, noteIf_eq]
  unfold dropped
  split
  · exact ⟨rfl, rfl, rfl⟩
  · cases hs : f.stack with
    | nil => exact ⟨hs, rfl, rfl⟩
    | cons e rest =>
      cases e with
      | literal l => exact ⟨rfl, rfl, rfl⟩
      | register id => exact hreleased { f with stack := rest } id

theorem popped : Moved 0 f f.popped where
  toLater := f.later_popped
  ticks := (popped_frame f).2.2
  blocks := (popped_frame f).2.1
  floor_le hf := by
    obtain ⟨hs, hb, -⟩ := popped_frame f
    rw [floor_of_blocks hb]
    unfold depth at *
    rw [hs]
    split
    · exact hf
    · rw [List.length_tail]
      omega

theorem poppedMany (n : Nat) : Moved 0 f (f.poppedMany n) := by
  induction n generalizing f with
  | zero => exact .refl f
  | succ n ih => exact (popped f).trans (ih f.popped)

theorem peek (n : Nat) : Moved 0 f (f.peek n).2 := peek_cases n (.refl f) (warn f)

theorem detachAliases (id : RegisterId) : Moved 0 f (f.detachAliases id).2 := by
  refine .of_stack (f.later_detachAliases id) ?_ ?_ ?_ <;> unfold Frame.detachAliases <;>
    simp only <;> split <;> simp

end Moved

theorem depth_popped {f : Frame} (hpos : 1 ≤ f.floor) (h : f.floor < f.depth) :
    f.popped.depth + 1 = f.depth := by
  have hs := (Moved.popped_frame f).1
  rw [if_neg (Nat.not_le.2 h)] at hs
  simp only [depth] at *
  rw [hs, List.length_tail]
  omega

theorem floor_popped (f : Frame) : f.popped.floor = f.floor :=
  floor_of_blocks (Moved.popped_frame f).2.1

theorem depth_poppedMany {f : Frame} {n : Nat} (hpos : 1 ≤ f.floor) (h : f.floor + n ≤ f.depth) :
    (f.poppedMany n).depth + n = f.depth := by
  induction n generalizing f with
  | zero => rfl
  | succ n ih =>
    have hd := depth_popped hpos (by omega)
    have hn := ih (f := f.popped) (by rw [floor_popped]; exact hpos) (by rw [floor_popped]; omega)
    rw [poppedMany]
    omega

end Moonstack.Frame
