import Moonstack.Proofs.Emission.Keeps

/-!
# Structured instructions

What the parts of a structured instruction write, as functions on frames: its begin with the locals
to zero (`Frame.begun`), the end of an arm (`Frame.settled`), the turn to the alternative
(`Frame.turned`), the close (`Frame.closed`) and its end (`Frame.finished`).

`Frame.Within` says that a frame stands inside an open block. The stack never goes below the floor of
the block, so it is as deep at the end of an arm as at its start (`depth_settled`), and the block
closes without fault (`writes_closeBlock`).
-/

namespace Moonstack

variable {outer : List Block}

namespace Frame

open Moonstack.Flow

/-! ## Begin and end of an instruction -/

/-- The frame after locals have been zeroed. -/
def zeroed (f : Frame) : List Nat → Frame
  | [] => f
  | index :: rest => ((f.localRegister index).2.accessed index).zeroed rest

def zeroLine (f : Frame) (index : Nat) : Line :=
  .stmt (.assign [.slot ((f.localRegister index).2.registers.slotOf (f.localRegister index).1)]
    ((f.localTypes[index]?).getD .i32).zero)

def zeroCode (f : Frame) : List Nat → List Line
  | [] => []
  | index :: rest =>
    f.zeroLine index :: ((f.localRegister index).2.accessed index).zeroCode rest

/-- The frame after the begin of an instruction. -/
def begun (f : Frame) : Frame := f.tick.zeroed (f.lifetimes.forcedAt f.tick.clock)

def beginCode (f : Frame) (i : Instr) : List Line :=
  f.tick.zeroCode (f.lifetimes.forcedAt f.tick.clock) ++
    if f.debug.instructions then [.comment s!"{i.mnemonic} @{i.offset}"] else []

/-- The frame after the end of an instruction. -/
def finished (f : Frame) : Frame := { f with notes := #[] }.drained

/-- The code of the end of an instruction. -/
def finishCode (f : Frame) : List Line :=
  f.notes.toList.map .comment ++
    if f.debug.stack then [.comment s!"stack depth {f.depth}"] else []

/-! ## Arms -/

/-- The frame after an arm of a block has given its value. -/
def yielded (f : Frame) (b : Block) : Frame :=
  if b.register.isSome ∧ b.enterDepth < f.depth then f.popped else f

/-- The code that stores the value of an arm. -/
def yieldCode (f : Frame) (b : Block) : List Line :=
  match b.register with
  | some id =>
    if b.enterDepth < f.depth then Emit.copied (f.popped.registers.slotOf id) f.top else []
  | none => []

/-- How many values an arm leaves too many. -/
def surplus (f : Frame) (b : Block) : Nat := (f.yielded b).depth - b.enterDepth

/-- The frame at the end of an arm. -/
def settled (f : Frame) (b : Block) : Frame :=
  if 0 < f.surplus b then
    ((f.yielded b).warn (Warning.extraValues b.name (f.surplus b)).message).poppedMany (f.surplus b)
  else f.yielded b

/-- The code at the end of an arm. -/
def settleCode (f : Frame) (b : Block) : List Line :=
  f.yieldCode b ++
    if 0 < f.surplus b then [Emit.warned (.extraValues b.name (f.surplus b))] else []

/-- The frame with the innermost block in its alternative. -/
def inAlternative (f : Frame) : Frame :=
  match f.blocks with
  | [] => f
  | inner :: outer => { f with blocks := { inner with inElse := true } :: outer }

/-- The frame at the start of the alternative of an `if`. -/
def turned (f : Frame) (b : Block) : Frame := (f.tick.settled b).inAlternative

/-- The code between the two arms of an `if`. -/
def turnCode (f : Frame) (b : Block) : List Line :=
  f.tick.settleCode b ++ [.stmt (.goto (.fin b.name)), .label (.alternative b.name)]

/-- Does the block lack an alternative that gives its value? -/
def lacksValue (b : Block) : Prop :=
  b.name.kind = .cond ∧ b.inElse = false ∧ b.register.isSome

instance (b : Block) : Decidable (lacksValue b) := inferInstanceAs (Decidable (_ ∧ _ ∧ _))

/-- The frame at the label behind a block. -/
def ended (f : Frame) (b : Block) : Frame :=
  let g := f.tick.settled b
  if lacksValue b then g.warn (Warning.valueWithoutElse b.name).message else g

def closed (f : Frame) (b : Block) : Frame :=
  match b.register with
  | some id => (f.ended b).dropBlock.pushRegister id
  | none => (f.ended b).dropBlock

/-- The code of the end of a block, up to its label. -/
def endCode (f : Frame) (b : Block) : List Line :=
  f.tick.settleCode b ++ if lacksValue b then [Emit.warned (.valueWithoutElse b.name)] else []

def closeCode (f : Frame) (b : Block) : List Line :=
  f.endCode b ++ (if b.name.kind = .loop then [.leave, .close] else []) ++ [.label (.fin b.name)]

/-- At its end a block is settled, with one warning more or not. -/
@[elab_as_elim]
theorem ended_cases {P : Frame → Prop} {f : Frame} {b : Block} (hs : P (f.tick.settled b))
    (hw : ∀ message, P ((f.tick.settled b).warn message)) : P (f.ended b) := by
  unfold ended
  simp only
  split
  · exact hw _
  · exact hs

/-- Behind its label a block is forgotten, and its value is pushed if it has one. -/
@[elab_as_elim]
theorem closed_cases {P : Frame → Prop} {f : Frame} {b : Block} (hd : P (f.ended b).dropBlock)
    (hp : ∀ id, P ((f.ended b).dropBlock.pushRegister id)) : P (f.closed b) := by
  unfold closed
  split
  · exact hp _
  · exact hd

theorem stack_warn (f : Frame) (message : String) : (f.warn message).stack = f.stack := rfl

theorem stack_closed_eq (f : Frame) (b : Block) :
    (f.closed b).stack = b.register.toList.map .register ++ (f.tick.settled b).stack := by
  have hs : (f.ended b).stack = (f.tick.settled b).stack :=
    ended_cases rfl (stack_warn _)
  unfold closed
  cases b.register with
  | none => exact hs
  | some id =>
    change ((f.ended b).dropBlock.pushRegister id).stack = _
    rw [pushRegister_eq]
    exact congrArg _ hs

end Frame

namespace Emit

open Moonstack.Frame Moonstack.Flow

variable {f : Frame} {held : List RegisterId}

theorem writes_zeroLocals (f : Frame) (indices : List Nat) :
    Writes (zeroLocals indices) f () (f.zeroed indices) (f.zeroCode indices) := by
  induction indices generalizing f with
  | nil => exact .pure _ _
  | cons index rest ih =>
    refine (writes_frame f).silent ((writes_step _ f).silent ?_)
    exact (writes_assign _ _ _).bind
      ((writes_attempt' (afterLocalAccess_eq _ index)).silent (ih _))

theorem moved_zeroed (f : Frame) (indices : List Nat) : Moved 0 f (f.zeroed indices) := by
  induction indices generalizing f with
  | nil => exact .refl f
  | cons index rest ih =>
    exact (Moved.localRegister f index).trans ((Moved.accessed _ index).trans (ih _))

section

variable {indices : List Nat} (ho : f.Owned held)
  (hi : ∀ index ∈ indices, index < f.localTypes.length)
include ho hi

/-- What holds of a frame is kept when locals are zeroed if it is kept when one of them is. -/
theorem zeroed_induction {P : Frame → Prop} (hP : P f)
    (step : ∀ {g index}, index ∈ indices → g.Owned held → index < g.localTypes.length → P g →
      P ((g.localRegister index).2.accessed index)) :
    (f.zeroed indices).Owned held ∧ P (f.zeroed indices) := by
  induction indices generalizing f with
  | nil => exact ⟨ho, hP⟩
  | cons index rest ih =>
    rw [List.forall_mem_cons] at hi
    have hm := (Moved.localRegister f index).trans (Moved.accessed _ index)
    refine ih ((ho.localRegister hi.1).1.accessed index) (by rw [hm.localTypes]; exact hi.2)
      (step List.mem_cons_self ho hi.1 hP) fun hmem => step (List.mem_cons_of_mem _ hmem)

theorem owned_zeroed : (f.zeroed indices).Owned held :=
  (zeroed_induction (P := fun _ => True) ho hi trivial fun _ _ _ _ => trivial).1

theorem accounted_zeroed (ha : f.Accounted held) : (f.zeroed indices).Accounted held :=
  (zeroed_induction (P := fun f => f.Accounted held) ho hi ha fun {_ index} _ ho hi ha =>
    (ha.localRegister index).accessedHeld (ho.localRegister hi).2).2

end

theorem shape_zeroCode (f : Frame) (indices : List Nat) : Shape [] (f.zeroCode indices) := by
  induction indices generalizing f with
  | nil => exact .nil
  | cons index rest ih => exact (Nested.stmt _).append (ih _)

theorem shape_comment_if (b : Bool) (text : String) :
    Shape [] (if b then [.comment text] else []) := by
  cases b with
  | true => exact .comment _
  | false => exact .nil

theorem moved_begun (f : Frame) : Moved 1 f f.begun :=
  (Moved.tick f).trans (moved_zeroed f.tick _)

/-- What is written at the begin of an instruction. -/
theorem keeps_begin (i : Instr) (f : Frame) (held : List RegisterId) :
    Keeps 1 [] (begin i) f held () f.begun held (f.beginCode i) where
  writes := by
    refine (writes_change _ f).silent ((writes_frame _).silent ?_)
    refine (writes_zeroLocals f.tick _).bind ?_
    have hd : (f.tick.debug.instructions : Bool) = f.debug.instructions := rfl
    rw [hd]
    split
    · exact writes_line _ _
    · exact .pure _ _
  moved := moved_begun f
  owned ho := by
    refine owned_zeroed ho.tick fun index hi => ?_
    obtain ⟨p, hp, rfl⟩ := List.mem_map.1 hi
    exact ho.forced p (List.mem_filter.1 hp).1
  accounted ho ha := by
    refine accounted_zeroed ho.tick (fun index hi => ?_) (ha.congr rfl rfl rfl)
    obtain ⟨p, hp, rfl⟩ := List.mem_map.1 hi
    exact ho.forced p (List.mem_filter.1 hp).1
  shape := (shape_zeroCode _ _).append (shape_comment_if _ _)

theorem shape_finishCode (f : Frame) : Shape [] f.finishCode := by
  refine Nested.append (?_ : Shape [] _) (shape_comment_if _ _)
  induction f.notes.toList with
  | nil => exact .nil
  | cons note rest ih => exact (Nested.comment note).append ih

/-- What is written at the end of an instruction. -/
theorem keeps_finish (f : Frame) (held : List RegisterId) :
    Keeps 0 [] finish f held () f.finished held f.finishCode where
  writes := by
    refine (writes_frame f).silent ((writes_change _ f).silent ?_)
    rw [forM_toList]
    refine (writes_forM (fun note => writes_line (.comment note) _) f.notes.toList).bind ?_
    refine (writes_frame _).silent ?_
    have hlast : Writes (attempt' drainPending) { f with notes := #[] } () f.finished [] :=
      writes_attempt' (drainPending_eq _)
    simp only
    split
    · exact (writes_line _ _).bind hlast
    · exact hlast
  moved := by
    have hl : f.Later { f with notes := #[] } :=
      .of_registers rfl rfl rfl rfl rfl rfl rfl fun h => ⟨_, h, rfl, rfl, rfl⟩
    exact (Moved.of_stack hl rfl rfl rfl).trans (.drained _)
  owned ho := by
    have hn : { f with notes := #[] }.Owned held := ho.congr rfl rfl rfl rfl rfl rfl rfl
    exact hn.drained
  accounted _ ha := by
    have hn : { f with notes := #[] }.Accounted held := ha.congr rfl rfl rfl
    exact hn.drained
  shape := shape_finishCode f

/-! ## Arms -/

theorem moved_yielded (f : Frame) (b : Block) : Moved 0 f (f.yielded b) := by
  unfold yielded
  split
  · exact .popped f
  · exact .refl f

/-- What is left over at the end of an arm is dropped. -/
theorem keeps_dropRest (b : Block) (g : Frame) (held : List RegisterId) :
    Keeps 0 [] (dropRest b) g held ()
      (if 0 < g.depth - b.enterDepth then
        (g.warn (Warning.extraValues b.name (g.depth - b.enterDepth)).message).poppedMany
          (g.depth - b.enterDepth)
      else g) held
      (if 0 < g.depth - b.enterDepth then
        [warned (.extraValues b.name (g.depth - b.enterDepth))] else []) := by
  by_cases h : 0 < g.depth - b.enterDepth
  · rw [if_pos h, if_pos h]
    refine (keeps_frame g held).seq ?_
    simp only [if_pos h]
    refine (keeps_warn g held _).seq ?_
    exact (keeps_popMany _ _ _).seq (.pure _ _ ())
  · rw [if_neg h, if_neg h]
    refine (keeps_frame g held).seq ?_
    simp only [if_neg h]
    exact .pure _ _ _

/-- What is written at the end of an arm. -/
theorem keeps_settleArm (b : Block) (f : Frame) (held : List RegisterId) :
    Keeps 0 [] (settleArm b) f held () (f.settled b) held (f.settleCode b) := by
  have hrest := keeps_dropRest b (f.yielded b) held
  unfold settleArm settleCode settled surplus
  cases hr : b.register with
  | none =>
    have hy : f.yielded b = f := by simp [yielded, hr]
    have hc : f.yieldCode b = [] := by simp [yieldCode, hr]
    rw [hy] at hrest ⊢
    rw [hc]
    exact hrest
  | some id =>
    simp only
    by_cases hd : b.enterDepth < f.depth
    · have hy : f.yielded b = f.popped := by simp [yielded, hr, hd]
      have hc : f.yieldCode b = copied (f.popped.registers.slotOf id) f.top := by
        simp [yieldCode, hr, hd]
      rw [hy] at hrest ⊢
      rw [hc]
      refine (keeps_frame f held).seq ?_
      rw [if_pos hd]
      exact (keeps_pop f held).seq ((keeps_copy _ held id _).seq hrest)
    · have hy : f.yielded b = f := by simp [yielded, hd]
      have hc : f.yieldCode b = [] := by simp [yieldCode, hr, hd]
      rw [hy] at hrest ⊢
      rw [hc]
      refine (keeps_frame f held).seq ?_
      rw [if_neg hd]
      exact hrest

variable {b : Block} (hb : f.blocks = b :: outer)
include hb

/-- At the end of an arm, the stack is as deep as it was at its start. -/
theorem depth_settled (hpos : 1 ≤ b.enterDepth) (hd : b.enterDepth ≤ f.depth) :
    (f.settled b).depth = b.enterDepth := by
  have hfl : f.floor = b.enterDepth := by simp only [floor, hb]
  have hyd : b.enterDepth ≤ (f.yielded b).depth := by
    unfold yielded
    split
    · rename_i h
      have := depth_popped (f := f) (by omega) (by omega)
      omega
    · exact hd
  have hyf : (f.yielded b).floor = b.enterDepth := by
    simp only [floor, (moved_yielded f b).blocks, hb]
  unfold settled
  split
  · have hs : f.surplus b = (f.yielded b).depth - b.enterDepth := rfl
    have hp {w : Frame} (hf : w.floor = b.enterDepth) (hw : w.depth = (f.yielded b).depth) :
        (w.poppedMany (f.surplus b)).depth = b.enterDepth := by
      have := depth_poppedMany (f := w) (n := f.surplus b) (by omega) (by omega)
      omega
    exact hp hyf rfl
  · rename_i hs
    unfold surplus at hs
    omega

/-! ## Alternatives and closes -/

omit hb in
theorem writes_alternative (b : Block) (f : Frame) :
    Writes (alternative b) f () (f.turned b) (f.turnCode b) := by
  refine (writes_change _ f).silent ((keeps_settleArm b f.tick []).writes.bind ?_)
  refine (writes_stmt _ _).bind ((writes_shallower _).silent ((writes_line _ _).bind ?_))
  exact (writes_deeper _).silent (writes_change inAlternative _)

theorem depth_ended (hpos : 1 ≤ b.enterDepth) (hd : b.enterDepth ≤ f.depth) :
    (f.ended b).depth = b.enterDepth :=
  have hs := depth_settled (f := f.tick) hb hpos hd
  ended_cases hs fun _ => hs

omit hb in
theorem depth_pushRegister (f : Frame) (id : RegisterId) :
    (f.pushRegister id).depth = f.depth + 1 := by
  rw [pushRegister_eq]
  rfl

theorem depth_closed (hpos : 1 ≤ b.enterDepth) (hd : b.enterDepth ≤ f.depth) :
    (f.closed b).depth = b.enterDepth + if b.register.isSome then 1 else 0 := by
  have he := depth_ended hb hpos hd
  unfold closed
  cases b.register with
  | none => exact he
  | some id =>
    simp only [depth_pushRegister, Option.isSome_some, if_true]
    exact congrArg (· + 1) he

omit hb in
theorem writes_checkDepth {g : Frame} {expected : Nat} (h : g.depth = expected) :
    Writes (checkDepth b expected) g () g [] := by
  refine (writes_frame g).silent ?_
  rw [if_neg (by simp [h])]
  exact .pure _ _

/-- Behind its label a block is forgotten and its value pushed. -/
theorem writes_forgetBlock (hpos : 1 ≤ b.enterDepth) (hd : b.enterDepth ≤ f.depth) :
    Writes (forgetBlock b) (f.ended b) () (f.closed b) [.label (.fin b.name)] := by
  have hdepth := depth_closed hb hpos hd
  refine (writes_line _ _).bind ((writes_change _ _).silent ?_)
  cases hr : b.register with
  | none =>
    have hc : f.closed b = (f.ended b).dropBlock := by simp [closed, hr]
    rw [hr] at hdepth
    rw [hc] at hdepth ⊢
    exact writes_checkDepth hdepth
  | some id =>
    have hc : f.closed b = (f.ended b).dropBlock.pushRegister id := by simp [closed, hr]
    rw [hr] at hdepth
    rw [hc] at hdepth ⊢
    exact (writes_change _ _).silent (writes_checkDepth hdepth)

theorem writes_leaveBlock (hpos : 1 ≤ b.enterDepth) (hd : b.enterDepth ≤ f.depth) :
    Writes (leaveBlock b) (f.ended b) () (f.closed b)
      ((if b.name.kind = .loop then [.leave, .close] else []) ++ [.label (.fin b.name)]) := by
  have hforget := writes_forgetBlock hb hpos hd
  unfold leaveBlock
  by_cases hl : b.name.kind = .loop
  · simp only [if_pos hl]
    exact (writes_line _ _).bind ((writes_shallower _).silent ((writes_line _ _).bind hforget))
  · simp only [if_neg hl]
    exact (writes_shallower _).silent hforget

/-- What is written at the close of a block. -/
theorem writes_closeBlock (hpos : 1 ≤ b.enterDepth) (hd : b.enterDepth ≤ f.depth) :
    Writes closeBlock f () (f.closed b) (f.closeCode b) := by
  have hleave := writes_leaveBlock hb hpos hd
  refine (writes_change _ f).silent ((writes_frame _).silent ?_)
  rw [show f.tick.blocks = b :: outer from hb]
  simp only
  unfold closeCode endCode
  rw [List.append_assoc, List.append_assoc]
  refine (keeps_settleArm b f.tick []).writes.bind ?_
  by_cases hv : lacksValue b
  · rw [ended, if_pos hv] at hleave
    rw [if_pos hv, if_pos (by exact hv)]
    exact (writes_warn _ _).bind hleave
  · rw [ended, if_neg hv] at hleave
    rw [if_neg hv, if_neg (by exact hv)]
    exact hleave

end Emit

/-! ## Inside a block -/

namespace Frame

open Moonstack.Flow Emit

/-- `g` stands inside the block `b`, which has been opened at `f`, `n` counter steps ago. -/
structure Within (n : Nat) (f : Frame) (b : Block) (g : Frame) : Prop extends Later f g where
  ticks : g.clock = f.clock + n
  blocks : g.blocks = b :: f.blocks
  enter : b.enterDepth = f.depth
  depth_le : b.enterDepth ≤ g.depth

namespace Within

variable {n k : Nat} {f g h : Frame} {b : Block} {held : List RegisterId}

theorem opened (f : Frame) (name : BlockName) (result : Option ValueType) :
    Within 0 f (f.openBlock name result).1 (f.openBlock name result).2 := by
  have hl := f.later_openBlock name result
  cases result with
  | none => exact ⟨hl, rfl, rfl, rfl, Nat.le_refl _⟩
  | some t =>
    refine ⟨hl, ?_, ?_, ?_, Nat.le_refl _⟩ <;> unfold Frame.openBlock <;> rw [temporary_eq] <;> rfl

variable (hg : Within n f b g)
include hg

theorem moved (hm : Moved k g h) : Within (n + k) f b h where
  toLater := hg.toLater.trans hm.toLater
  ticks := by rw [hm.ticks, hg.ticks, Nat.add_assoc]
  blocks := hm.blocks.trans hg.blocks
  enter := hg.enter
  depth_le := by
    have hfloor {f' : Frame} (hb : f'.blocks = b :: f.blocks) : f'.floor = b.enterDepth := by
      simp only [floor, hb]
    have := hm.floor_le (by rw [hfloor hg.blocks]; exact hg.depth_le)
    rwa [hfloor (hm.blocks.trans hg.blocks)] at this

theorem enter_pos : 1 ≤ b.enterDepth := by
  rw [hg.enter]
  exact Nat.le_add_left 1 _

theorem settled : Within (n + 1) f b (g.tick.settled b) :=
  (hg.moved (.tick g)).moved (keeps_settleArm b g.tick []).moved

theorem turned_eq :
    g.turned b = { g.tick.settled b with blocks := { b with inElse := true } :: f.blocks } := by
  simp only [Frame.turned, inAlternative, hg.settled.blocks]

theorem turned : Within (n + 1) f { b with inElse := true } (g.turned b) := by
  have hs := hg.settled
  rw [hg.turned_eq]
  exact ⟨hs.toLater.trans (later_blocks _ _), hs.ticks, rfl, hs.enter, hs.depth_le⟩

theorem ended : Within (n + 1) f b (g.ended b) :=
  ended_cases hg.settled fun _ => hg.settled.moved (.warn _ _)

/-- A block that is closed leaves the blocks around it as they were. -/
theorem closed : Moved (n + 1) f (g.closed b) := by
  have he := hg.ended
  have hdepth := depth_closed hg.blocks hg.enter_pos hg.depth_le
  have hclosed : (f.Later (g.closed b) ∧ (g.closed b).clock = f.clock + (n + 1)) ∧
      (g.closed b).blocks = f.blocks := by
    have hdrop : (f.Later (g.ended b).dropBlock ∧ (g.ended b).dropBlock.clock = f.clock + (n + 1)) ∧
        (g.ended b).dropBlock.blocks = f.blocks :=
      ⟨⟨he.toLater.trans (later_dropBlock _), he.ticks⟩,
        by simp only [dropBlock, he.blocks, List.tail_cons]⟩
    refine closed_cases hdrop fun id => ?_
    have hp := Moved.pushRegister (g.ended b).dropBlock id
    exact ⟨⟨hdrop.1.1.trans hp.toLater, hp.ticks.trans hdrop.1.2⟩, hp.blocks.trans hdrop.2⟩
  refine ⟨hclosed.1.1, hclosed.1.2, hclosed.2, fun hf => ?_⟩
  rw [hdepth, hg.enter]
  have hfl := floor_of_blocks hclosed.2
  omega

/-! Ownership -/

theorem owned_turned (ho : g.Owned held) : (g.turned b).Owned held := by
  rw [hg.turned_eq]
  refine ((keeps_settleArm b g.tick held).owned ho.tick).reblock ?_
  rw [hg.settled.blocks]
  rfl

omit hg in
theorem owned_ended (ho : g.Owned held) (b : Block) : (g.ended b).Owned held := by
  have hos := (keeps_settleArm b g.tick held).owned ho.tick
  exact ended_cases hos fun _ => hos.warn _

theorem owned_closed (ho : g.Owned held) : (g.closed b).Owned held := by
  have hd := (owned_ended ho b).dropBlock hg.ended.blocks
  unfold Frame.closed
  cases hr : b.register with
  | none => rwa [hr] at hd
  | some id =>
    rw [hr] at hd
    exact hd.pushHeld

/-! No register is lost -/

theorem accounted_turned (ho : g.Owned held) (ha : g.Accounted held) :
    (g.turned b).Accounted held := by
  have has := (keeps_settleArm b g.tick held).accounted ho.tick (ha.congr rfl rfl rfl)
  rw [hg.turned_eq]
  refine has.reblock ?_
  rw [hg.settled.blocks]
  rfl

omit hg in
theorem accounted_ended (ho : g.Owned held) (ha : g.Accounted held) (b : Block) :
    (g.ended b).Accounted held := by
  have has := (keeps_settleArm b g.tick held).accounted ho.tick (ha.congr rfl rfl rfl)
  exact ended_cases has fun _ => has.congr rfl rfl rfl

theorem accounted_closed (ho : g.Owned held) (ha : g.Accounted held) :
    (g.closed b).Accounted held := by
  have hd := (accounted_ended ho ha b).dropBlock hg.ended.blocks
  unfold Frame.closed
  cases hr : b.register with
  | none => rwa [hr] at hd
  | some id =>
    rw [hr] at hd
    exact Accounted.pushRegister hd

end Within

end Frame

end Moonstack
