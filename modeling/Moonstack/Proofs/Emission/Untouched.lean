import Moonstack.Proofs.Emission.Effects
import Moonstack.Proofs.Emission.Leaks
import Moonstack.Proofs.Emission.Starts

/-!
# The stack below a block

A structured instruction works on its own part of the stack. The entries below the floor of the
innermost open block (`Frame.sunk`) stay where they are, and stay what they are unless an entry
stands for a local that is written: then it is moved to a copy (`Emit.Carried`).

Most steps leave those entries alone (`Frame.Rests`); a write to a local is the only one that moves
some of them (`carries_detached`). A whole body carries them from its start to its end
(`carrying_walk`), by induction on the instructions.
-/

namespace Moonstack

namespace Frame

variable {f g h : Frame}

/-- The entries below the floor of the innermost open block, the uppermost first. -/
def sunk (f : Frame) : List Entry := f.stack.drop (f.depth - f.floor)

theorem mem_of_mem_sunk {e : Entry} (h : e ∈ f.sunk) : e ∈ f.stack := List.mem_of_mem_drop h

/-- Where the stack ends at the floor, all of it lies below. -/
theorem sunk_of_depth (h : f.depth = f.floor) : f.sunk = f.stack := by
  rw [sunk, h, Nat.sub_self, List.drop_zero]

/-- A register that is still to be created was so before. -/
theorem Later.absent {id : RegisterId} (hl : f.Later g) (h : g.registers.get? id = none) :
    f.registers.get? id = none := by
  refine Option.eq_none_iff_forall_ne_some.2 fun r hr => ?_
  obtain ⟨r', hr', -⟩ := hl.register hr
  rw [h] at hr'
  cases hr'

/-- The blocks stay open, and the entries below the innermost one are the same. -/
structure Rests (f g : Frame) : Prop where
  blocks : g.blocks = f.blocks
  floor_le : f.floor ≤ f.depth → g.floor ≤ g.depth
  sunk : f.floor ≤ f.depth → g.sunk = f.sunk

namespace Rests

theorem refl (f : Frame) : Rests f f := ⟨rfl, fun hf => hf, fun _ => rfl⟩

theorem trans (hfg : Rests f g) (hgh : Rests g h) : Rests f h where
  blocks := hgh.blocks.trans hfg.blocks
  floor_le hf := hgh.floor_le (hfg.floor_le hf)
  sunk hf := (hgh.sunk (hfg.floor_le hf)).trans (hfg.sunk hf)

theorem of_stack (hs : g.stack = f.stack) (hb : g.blocks = f.blocks) : Rests f g := by
  have hfloor := floor_of_blocks hb
  have hdepth : g.depth = f.depth := by simp only [depth, hs]
  refine ⟨hb, fun hf => ?_, fun _ => ?_⟩
  · rwa [hfloor, hdepth]
  · rw [Frame.sunk, Frame.sunk, hs, hfloor, hdepth]

theorem of_push {e : Entry} (hs : g.stack = e :: f.stack) (hb : g.blocks = f.blocks) :
    Rests f g := by
  have hfloor := floor_of_blocks hb
  have hdepth : g.depth = f.depth + 1 := by simp only [depth, hs, List.length_cons]
  refine ⟨hb, fun hf => by omega, fun hf => ?_⟩
  rw [Frame.sunk, Frame.sunk, hs, hfloor, hdepth, Nat.sub_add_comm hf, List.drop_succ_cons]

theorem of_quiet (hq : Quiet f g) : Rests f g := by
  obtain ⟨w, l, rfl⟩ := hq
  exact of_stack rfl rfl

variable (f)

theorem popped : Rests f f.popped := by
  obtain ⟨hs, hb, -⟩ := Moved.popped_frame f
  by_cases hd : f.depth ≤ f.floor
  · rw [if_pos hd] at hs
    exact of_stack hs hb
  · rw [if_neg hd] at hs
    have hfloor := floor_of_blocks hb
    refine ⟨hb, (Moved.popped f).floor_le, fun _ => ?_⟩
    cases he : f.stack with
    | nil => simp only [Frame.sunk, hs, he, List.tail_nil, List.drop_nil]
    | cons e rest =>
      simp only [depth, he, List.length_cons] at hd
      have hd : rest.length + 1 + 1 - f.floor = rest.length + 1 - f.floor + 1 := by omega
      simp only [Frame.sunk, depth, hs, he, hfloor, List.tail_cons, List.length_cons, hd,
        List.drop_succ_cons]

theorem poppedMany (n : Nat) : Rests f (f.poppedMany n) := by
  induction n generalizing f with
  | zero => exact refl f
  | succ n ih => exact (popped f).trans (ih f.popped)

theorem pushLiteral (l : Literal) : Rests f (f.pushLiteral l) := by
  rw [pushLiteral_eq]
  exact of_push rfl rfl

theorem pushRegister (id : RegisterId) : Rests f (f.pushRegister id) := by
  rw [pushRegister_eq]
  exact of_push rfl rfl

theorem foldl {ι : Type} {u : Frame → ι → Frame} (hu : ∀ f i, Rests f (u f i)) (items : List ι) :
    Rests f (items.foldl u f) :=
  List.foldlRecOn items _ (refl f) fun _ hg i _ => hg.trans (hu _ i)

theorem accessed (index : Nat) : Rests f (f.accessed index) :=
  of_stack (f.stack_accessed index) (Moved.accessed f index).blocks

theorem localRegister (index : Nat) : Rests f (f.localRegister index).2 :=
  of_stack (f.stack_localRegister index) (Moved.localRegister f index).blocks

theorem tick : Rests f f.tick := of_stack rfl rfl

theorem begun : Rests f f.begun := of_stack (stack_begun f) (Emit.moved_begun f).blocks

theorem finished : Rests f f.finished :=
  of_stack (stack_freedAll _ _) (Emit.keeps_finish f []).moved.blocks

theorem performed (p : Plain) : Rests f (f.performed p) :=
  (of_stack (f.stack_temporaries p.pushes) (Moved.temporaries f p.pushes).blocks).trans
    ((poppedMany _ p.pops).trans (foldl _ pushRegister _))

variable {f} in
theorem of_serves {code : List Line} (hs : Serves f code g) : Rests f g := by
  cases hs with
  | @intro f₁ g p literals hq _ ha =>
    refine (of_quiet hq).trans ((performed f₁ p).trans ((foldl _ pushLiteral literals).trans ?_))
    obtain ⟨w, l, s, rfl⟩ := ha
    exact of_stack rfl rfl

/-- The end of an arm drops what the arm has left. -/
theorem settled (b : Block) : Rests f (f.settled b) := by
  have hy : Rests f (f.yielded b) := by
    unfold yielded
    split
    · exact popped f
    · exact refl f
  unfold Frame.settled
  split
  · exact hy.trans ((of_quiet (.warn _ _)).trans (poppedMany _ _))
  · exact hy

end Rests

theorem sunk_openBlock (f : Frame) (name : BlockName) (result : Option ValueType) :
    (f.openBlock name result).2.sunk = f.stack := by
  have hw := Within.opened f name result
  have hd : (f.openBlock name result).2.depth = f.depth := by
    simp only [depth, stack_openBlock]
  rw [sunk_of_depth, stack_openBlock]
  simp only [floor, hw.blocks, hw.enter, hd]

section

variable {n : Nat} {b : Block}

/-- At the end of an arm, the entries below the block are left. -/
theorem stack_settled (hg : Within n f b g) : (g.tick.settled b).stack = g.sunk := by
  have hb : g.tick.blocks = b :: f.blocks := hg.blocks
  have hr := (Rests.tick g).trans (Rests.settled g.tick b)
  have hfloor : g.floor = b.enterDepth := by simp only [floor, hg.blocks]
  rw [← hr.sunk (hfloor ▸ hg.depth_le), sunk_of_depth]
  rw [Emit.depth_settled hb hg.enter_pos hg.depth_le]
  simp only [floor, hr.blocks, hg.blocks]

/-- Behind a block, its value lies on the entries below it. -/
theorem stack_closed (hg : Within n f b g) :
    (g.closed b).stack = b.register.toList.map .register ++ g.sunk := by
  rw [stack_closed_eq, stack_settled hg]

/-- At the start of the second arm, all of the stack lies below the block. -/
theorem stack_turned (hg : Within n f b g) :
    (g.turned b).stack = g.sunk ∧ (g.turned b).sunk = g.sunk := by
  have ht : (g.turned b).stack = g.sunk := by
    rw [← stack_settled hg]
    simp only [Frame.turned, inAlternative, hg.settled.blocks]
  have hw := hg.turned
  refine ⟨ht, (sunk_of_depth ?_).trans ht⟩
  have hs := Emit.depth_settled (f := g.tick) hg.blocks hg.enter_pos hg.depth_le
  have hd : (g.turned b).depth = (g.tick.settled b).depth := by
    simp only [depth, ht, stack_settled hg]
  rw [hd, hs]
  simp only [floor, hw.blocks]

end

theorem length_register_openBlock (f : Frame) (name : BlockName) (result : Option ValueType) :
    (f.openBlock name result).1.register.toList.length = if result.isSome then 1 else 0 := by
  cases result <;> rfl

end Frame

namespace Emit

open Moonstack.Frame Instr

variable {env : Env} {A B : Instr → Emission → Prop} {f g h : Frame} {xs ys zs : List Entry}
  {e e' e'' : Entry}

/-! ## Entries that are moved -/

/-- At an instruction that the writing comes to, the local `l` is written. The stack entries of its
register `id` are moved there to the new register `copy`. -/
def Detaches (A : Instr → Emission → Prop) (l : Nat) (id copy : RegisterId) : Prop :=
  ∃ offset o q, A (.leaf offset o) q ∧ o.assigns = some l ∧
    id = (q.frame.begun.localRegister l).1 ∧ .register id ∈ q.frame.begun.stack ∧
    copy = (q.frame.begun.localRegister l).2.registers.createTemporary.1 ∧
    (detached q.frame.begun l).2.stack = q.frame.begun.stack.map (redirect id copy)

/-- What has become of an entry between two frames: it is the same, or it stood for a local that has
been written in between. -/
inductive Carried (A : Instr → Emission → Prop) (f g : Frame) : Entry → Entry → Prop where
  | same (e : Entry) : Carried A f g e e
  | moved {l : Nat} {id copy : RegisterId} : f.standsFor (.register id) = some l →
    g.standsFor (.register copy) = none → f.registers.get? copy = none → Detaches A l id copy →
    Carried A f g (.register id) (.register copy)

theorem Detaches.mono {l : Nat} {id copy : RegisterId} (h : Detaches A l id copy)
    (hAB : ∀ j q, A j q → B j q) : Detaches B l id copy := by
  obtain ⟨offset, o, q, ha, hrest⟩ := h
  exact ⟨offset, o, q, hAB _ _ ha, hrest⟩

theorem Carried.mono (h : Carried A f g e e') (hAB : ∀ j q, A j q → B j q) :
    Carried B f g e e' := by
  cases h with
  | same => exact .same e
  | moved hf hg hnew hd => exact .moved hf hg hnew (hd.mono hAB)

/-- No entry is moved twice, since a copy stands for no local. -/
theorem Carried.trans (ho : f.Owned []) (ho' : g.Owned []) (hfg : f.Later g) (hgh : g.Later h)
    (he : e ∈ f.stack) (he' : e' ∈ g.stack) (h₁ : Carried A f g e e')
    (h₂ : Carried A g h e' e'') : Carried A f h e e'' := by
  cases h₁ with
  | same =>
    cases h₂ with
    | same => exact .same e
    | moved hg hh hnew hd =>
      exact .moved ((standsFor_of_later ho hfg he).symm.trans hg) hh (hfg.absent hnew) hd
  | moved hf hg hnew hd =>
    cases h₂ with
    | same => exact .moved hf ((standsFor_of_later ho' hgh he').trans hg) hnew hd
    | moved hg' =>
      rw [hg] at hg'
      cases hg'

theorem forall₂_carried_trans (ho : f.Owned []) (ho' : g.Owned []) (hfg : f.Later g)
    (hgh : g.Later h) (hs : xs ⊆ f.stack) (ht : ys ⊆ g.stack)
    (h₁ : List.Forall₂ (Carried A f g) xs ys) (h₂ : List.Forall₂ (Carried A g h) ys zs) :
    List.Forall₂ (Carried A f h) xs zs := by
  induction h₁ generalizing zs with
  | nil =>
    cases h₂
    exact .nil
  | cons he _ ih =>
    cases h₂ with
    | cons he' hrest =>
      rw [List.cons_subset] at hs ht
      exact .cons (he.trans ho ho' hfg hgh hs.1 ht.1 he') (ih hs.2 ht.2 hrest)

/-- On the way from `f` to `g`, the entries `xs` become `ys`. -/
structure Carries (A : Instr → Emission → Prop) (f : Frame) (xs : List Entry) (g : Frame)
    (ys : List Entry) : Prop where
  owned : f.Owned []
  source : xs ⊆ f.stack
  later : f.Later g
  carried : List.Forall₂ (Carried A f g) xs ys

namespace Carries

theorem same (ho : f.Owned []) (hs : xs ⊆ f.stack) (hl : f.Later g) : Carries A f xs g xs :=
  ⟨ho, hs, hl, List.forall₂_same.2 fun e _ => .same e⟩

theorem mono (h : Carries A f xs g ys) (hAB : ∀ j q, A j q → B j q) : Carries B f xs g ys :=
  ⟨h.owned, h.source, h.later, h.carried.imp fun _ _ hc => hc.mono hAB⟩

theorem trans (h₁ : Carries A f xs g ys) (h₂ : Carries A g ys h zs) : Carries A f xs h zs :=
  ⟨h₁.owned, h₁.source, h₁.later.trans h₂.later, forall₂_carried_trans h₁.owned h₂.owned h₁.later
    h₂.later h₁.source h₂.source h₁.carried h₂.carried⟩

theorem drop (h : Carries A f xs g ys) (n : Nat) : Carries A f (xs.drop n) g (ys.drop n) :=
  ⟨h.owned, fun _ he => h.source (List.mem_of_mem_drop he), h.later, List.forall₂_drop n h.carried⟩

/-- Entries below the innermost block, where they rest. -/
theorem of_rests (hp : f.Poised) (hl : f.Later g) (hr : Rests f g) :
    Carries A f f.sunk g g.sunk := by
  rw [hr.sunk hp.floor_le]
  exact same hp.owned (fun _ he => mem_of_mem_sunk he) hl

end Carries

/-! ## Instructions without a body -/

section

variable {l : Nat}

theorem rests_detached (f : Frame) (l : Nat) (keep : Bool) :
    Rests (detached f l).2 (stored f l keep) := by
  cases keep with
  | true => exact (Rests.popped _).trans ((Rests.pushRegister _ _).trans (Rests.accessed _ l))
  | false => exact (Rests.popped _).trans (Rests.accessed _ l)

theorem later_detached (f : Frame) (l : Nat) (keep : Bool) :
    (detached f l).2.Later (stored f l keep) := by
  cases keep with
  | true => exact (later_popped _).trans ((later_pushRegister _ _).trans (later_accessed _ l))
  | false => exact (later_popped _).trans (later_accessed _ l)

theorem poised_detached (hp : f.Poised) (hi : l < f.localTypes.length) :
    (detached f l).2.Poised := by
  obtain ⟨hown, hb⟩ := hp.owned.localRegister hi
  exact hp.moved ((Moved.localRegister f l).trans (.detachAliases _ _)) (hown.detachAliases hb).1

/-- A write to a local moves the entries of the local. -/
theorem carries_detached {offset : Nat} {o : Op} {q : Emission} (hp : q.frame.begun.Poised)
    (ha : A (.leaf offset o) q) (ho : o.assigns = some l)
    (hi : l < q.frame.begun.localTypes.length) :
    Carries A q.frame.begun q.frame.begun.sunk (detached q.frame.begun l).2
      (detached q.frame.begun l).2.sunk := by
  generalize hf : q.frame.begun = f at hp hi
  have hlocal := f.later_localRegister l
  have hlater : f.Later (detached f l).2 := hlocal.trans (later_detachAliases _ _)
  have hstack := f.stack_localRegister l
  obtain ⟨hown, hb⟩ := hp.owned.localRegister hi
  by_cases hm : Entry.register (f.localRegister l).1 ∈ f.stack
  · obtain ⟨g, hg, hs, hblocks, a, hcopy, hnone, -⟩ :=
      detachAliases_of_referenced (hown.referenced hb (hstack ▸ hm))
    have hd : (detached f l).2 = g := congrArg Prod.snd hg
    rw [hstack] at hs
    rw [hd] at hlater ⊢
    have hsunk : g.sunk = f.sunk.map
        (redirect (f.localRegister l).1 (f.localRegister l).2.registers.arena.size) := by
      simp only [sunk, depth, floor, hs, hblocks, (Moved.localRegister f l).blocks,
        List.length_map, List.map_drop]
    refine ⟨hp.owned, fun _ he => mem_of_mem_sunk he, hlater, ?_⟩
    rw [hsunk, List.forall₂_map_right_iff, List.forall₂_same]
    intro e he
    by_cases heq : e = .register (f.localRegister l).1
    · subst heq
      rw [redirect, if_pos rfl]
      refine .moved ?_ ?_ ?_ ⟨offset, o, q, ha, ho, ?_⟩
      · rw [← standsFor_of_later hp.owned hlocal hm]
        exact hown.standsFor_bound hb
      · simp only [standsFor, hcopy, Option.bind_some, hnone]
      · exact hlocal.absent (Array.getElem?_eq_none (Nat.le_refl _))
      · rw [hf, hd]
        exact ⟨rfl, hm, (create_fst _ _ _ _).symm, hs⟩
    · rw [redirect, if_neg heq]
      exact .same e
  · have hd : (detached f l).2 = (f.localRegister l).2 :=
      congrArg Prod.snd (detachAliases_of_not_mem hown hb (hstack ▸ hm))
    rw [hd]
    exact .of_rests hp hlocal (.localRegister f l)

theorem carries_leaf {offset : Nat} {o : Op} {p : Emission} {lines : List Line}
    (hwide : o.isWide env.options.branchTableLimit = false) (hp : p.frame.Poised)
    (hw : Writes (instr env (.leaf offset o)) p.frame () g lines) :
    Carries (Arrives env (.leaf offset o) p) p.frame p.frame.sunk g g.sunk := by
  have hbegin := keeps_begin (.leaf offset o) p.frame []
  obtain ⟨h, code, ho, heffect⟩ := effect_op hwide offset
  obtain ⟨-, rfl, -⟩ := hw.unique (writes_leaf ho)
  obtain ⟨_, h', code', hk⟩ := succeeds_op p.frame.begun [] hwide offset
  obtain ⟨-, rfl, -⟩ := ho.unique hk.writes
  have hh : h.Poised := hp.begun.moved hk.moved (hk.owned hp.begun.owned)
  refine (Carries.of_rests hp hbegin.moved.toLater (.begun p.frame)).trans (Carries.trans ?_
    (.of_rests hh (keeps_finish h []).moved.toLater (.finished h)))
  have hrests (hr : Rests p.frame.begun h) :
      Carries (Arrives env (.leaf offset o) p) p.frame.begun p.frame.begun.sunk h h.sunk :=
    .of_rests hp.begun hk.moved.toLater hr
  cases heffect with
  | serves _ _ hs | misses _ _ hs => exact hrests (.of_serves hs)
  | @jumps _ _ k _ hk' hq _ =>
    refine hrests (Rests.trans ?_ (.of_quiet hq))
    obtain rfl | rfl := hk'
    · exact .refl _
    · exact .popped _
  | fetches _ hi =>
    exact hrests ((Rests.localRegister _ _).trans ((Rests.pushRegister _ _).trans (.accessed _ _)))
  | stores keep ha hi =>
    exact (carries_detached hp.begun (.self _ _) ha hi).trans
      (.of_rests (poised_detached hp.begun hi) (later_detached _ _ keep) (rests_detached _ _ keep))

end

/-! ## Structured instructions -/

section

variable {n : Nat} {b : Block} {name : BlockName} {result : Option ValueType}

/-- From the opening of a block to the end of its arm. -/
theorem carries_opened (hp : f.Poised)
    (hbody : Carries A (f.openBlock name result).2 (f.openBlock name result).2.sunk g ys) :
    Carries A f f.stack g ys := by
  rw [sunk_openBlock] at hbody
  exact (Carries.same hp.owned (List.Subset.refl _) (f.later_openBlock name result)).trans hbody

theorem carries_opening (hp : f.Poised) (kind : BlockKind) :
    Carries A f f.sunk (f.opening kind) (f.opening kind).sunk := by
  refine .of_rests hp (Moved.opening f kind).toLater ?_
  cases kind with
  | block | loop => exact .begun f
  | cond => exact (Rests.begun f).trans (.popped _)

/-- From the end of an arm to the end of the instruction. -/
theorem carries_closed (hp : g.Poised) : Carries A g g.sunk (g.closed b).finished g.sunk :=
  .same hp.owned (fun _ he => mem_of_mem_sunk he)
    ((later_closed g b).trans (keeps_finish _ []).moved.toLater)

/-- From the end of the first arm to the start of the second one. -/
theorem carries_turned (hp : g.Poised) (hg : Within n f b g) :
    Carries A g g.sunk (g.turned b) (g.turned b).sunk := by
  rw [(stack_turned hg).2]
  exact .same hp.owned (fun _ he => mem_of_mem_sunk he) (later_turned g b)

/-- The frame `g` lies behind a structured instruction whose block was opened in the frame `f`. -/
structure Behind (A : Instr → Emission → Prop) (f : Frame) (register : Option RegisterId)
    (g : Frame) : Prop where
  blocks : g.blocks = f.blocks
  stack : ∃ below, g.stack = register.toList.map .register ++ below ∧ Carries A f f.stack g below

theorem behind_closed (hp : g.Poised) (hg : Within n f b g) (hc : Carries A f f.stack g g.sunk) :
    Behind A f b.register (g.closed b).finished := by
  have hr := Rests.finished (g.closed b)
  refine ⟨hr.blocks.trans hg.closed.blocks, g.sunk, ?_, hc.trans (carries_closed hp)⟩
  rw [← stack_closed hg]
  exact stack_freedAll _ _

/-- What lies below the instruction itself is part of what lies below its block. -/
theorem Behind.sunk {register : Option RegisterId} (h : Behind A f register g) (hp : f.Poised) :
    Carries A f f.sunk g g.sunk := by
  obtain ⟨below, hs, hc⟩ := h.stack
  have hlength := hc.carried.length_eq
  have hfloor := floor_of_blocks h.blocks
  have hdepth : g.depth - g.floor =
      (register.toList.map Entry.register).length + (f.depth - f.floor) := by
    have hle := hp.floor_le
    simp only [depth] at hle ⊢
    rw [hs, List.length_append, ← hlength, hfloor]
    omega
  have hsunk : g.sunk = below.drop (f.depth - f.floor) := by
    rw [Frame.sunk, hdepth, ← List.drop_drop, hs, List.drop_left]
  rw [hsunk]
  exact hc.drop _

end

section

variable {offset : Nat} {result : Option ValueType} {inner other : List Instr} {b : Block}
  {e : Emission} {start f₁ : Frame} {lines : List Line}

/-- The entries below the innermost block are carried along the writing of the body. -/
def Carrying (env : Env) (code : List Instr) : Prop :=
  ∀ (e : Emission) (g : Frame) (lines : List Line), e.frame.Poised →
    bodyHasWide env.options.branchTableLimit code = false →
    Writes (body env code) e.frame () g lines →
    Carries (BodyArrives env code e) e.frame e.frame.sunk g g.sunk

/-- The writing of an arm. -/
theorem Carrying.inside (h : Carrying env inner)
    (hwide : bodyHasWide env.options.branchTableLimit inner = false) (hp : start.Poised)
    (hi : Inside env inner f b start g lines) (he : e.frame = start)
    (hA : ∀ j q, BodyArrives env inner e j q → A j q) :
    Carries A start start.sunk g g.sunk ∧ g.Poised := by
  subst he
  exact ⟨(h e g lines hp hwide hi.keeps.writes).mono hA,
    hp.moved hi.keeps.moved (hi.keeps.owned hp.owned)⟩

/-- What the writing of a structured instruction comes to. -/
def Closes (env : Env) (i : Instr) : Prop :=
  ∀ ⦃name : BlockName⦄ ⦃result : Option ValueType⦄ ⦃e : Emission⦄ ⦃g : Frame⦄ ⦃lines : List Line⦄,
    i.opens = some (name, result) → e.frame.Poised →
    i.hasWide env.options.branchTableLimit = false → Writes (instr env i) e.frame () g lines →
    Behind (Arrives env i e) (e.frame.opening name.kind)
      ((e.frame.opening name.kind).openBlock name result).1.register g

theorem Closes.carries {i : Instr} (h : Closes env i) (hp : e.frame.Poised)
    (hwide : i.hasWide env.options.branchTableLimit = false)
    (hw : Writes (instr env i) e.frame () g lines) :
    Carries (Arrives env i e) e.frame e.frame.sunk g g.sunk := by
  cases i with
  | leaf => exact carries_leaf hwide hp hw
  | _ => exact (carries_opening hp _).trans ((h rfl hp hwide hw).sunk (hp.opening _))

/-- A structured instruction leaves the stack below its block as it is, and so does a body. -/
theorem carrying_walk : Walk (Closes env) (Carrying env) where
  leaf _ _ _ _ _ _ _ hopens := nomatch hopens
  encloses hi hinner _ _ e _ _ hopens hp hwide hw := by
    cases hi.opens_eq.symm.trans hopens
    rw [hi.hasWide_eq] at hwide
    obtain ⟨b, g', _, rfl, hin, rfl, -⟩ := written_encloses hi hwide hw
    obtain ⟨e', hx, he', -⟩ := writes_enter hi.opens_eq e.frame e rfl
    obtain ⟨n, hn⟩ := hin.within
    obtain ⟨hc, hp'⟩ := hinner.inside hwide ((hp.opening _).opened _ _) hin he'
      fun _ _ ha => (arrives_encloses hi).2 (.inr ⟨e', hx, ha⟩)
    exact behind_closed hp' hn (carries_opened (hp.opening _) hc)
  ifElse offset result inner other hinner hother _ _ e _ _ hopens hp hwide hw := by
    cases hopens
    obtain ⟨hwide, hwide'⟩ := Bool.or_eq_false_iff.1 hwide
    obtain ⟨b, g₁, _, g₂, _, rfl, hi₁, hi₂, rfl, -⟩ := written_ifElse hwide hwide' hw
    obtain ⟨e₁, hx₁, he₁, -⟩ :=
      writes_enter (i := .ifElse offset result inner other) rfl e.frame e rfl
    obtain ⟨_, hturn⟩ := writes_untilAlternative offset result other hi₁
    obtain ⟨e₂, hx₂, he₂, -⟩ := hturn e rfl
    obtain ⟨n, hn⟩ := hi₁.within
    obtain ⟨m, hm⟩ := hi₂.within
    obtain ⟨hc₁, hp₁⟩ := hinner.inside hwide ((hp.opening .cond).opened _ _) hi₁ he₁
      fun _ _ ha => arrives_ifElse.2 (.inr (.inl ⟨e₁, hx₁, ha⟩))
    obtain ⟨hc₂, hp₂⟩ := hother.inside hwide' (hp₁.turned hn) hi₂ he₂
      fun _ _ ha => arrives_ifElse.2 (.inr (.inr ⟨e₂, hx₂, ha⟩))
    -- The mark that a block is in its second arm does not change its register.
    have hbehind := behind_closed hp₂ hm
      ((carries_opened (hp.opening .cond) hc₁).trans ((carries_turned hp₁ hn).trans hc₂))
    exact hbehind
  nil e _ _ hp _ hw := by
    obtain ⟨-, rfl, -⟩ := hw.unique (.pure e.frame ())
    exact .of_rests hp (.refl _) (.refl _)
  cons hhead hrest e _ _ hp hwide hw := by
    obtain ⟨h, _, _, hi, hr, -⟩ := written_cons hwide hw
    obtain ⟨hwide₁, hwide₂⟩ := Bool.or_eq_false_iff.1 hwide
    obtain ⟨e', hx, he', -⟩ := hi.writes e rfl
    subst he'
    have hp' := hp.moved hi.moved (hi.owned hp.owned)
    exact ((hhead.carries hp hwide₁ hi.writes).mono fun _ _ ha => arrives_cons.2 (.inl ha)).trans
      ((hrest e' _ _ hp' hwide₂ hr.writes).mono fun _ _ ha => arrives_cons.2 (.inr ⟨e', hx, ha⟩))

end

/-! ## The stack behind a structured instruction -/

/-- **A structured instruction keeps to its own part of the stack.** Let the writing of a body come
to a `block`, a `loop` or an `if`, and let it succeed. Behind the instruction the same blocks are
open as in front of it. The stack is the one in which the block was opened, with the register of the
result on top if there is one. An entry below has been replaced only if it stood for a local that is
written inside: in its place there is the register that was created there for it. -/
theorem stack_structured {code : List Instr} {e p p' : Emission} {i : Instr} {name : BlockName}
    {result : Option ValueType} (hs : Starts env code e) (ha : BodyArrives env code e i p)
    (hi : i.opens = some (name, result)) (hok : instr env i p = .ok () p') :
    let f := p.frame.opening name.kind
    p'.frame.depth = f.depth + (if result.isSome then 1 else 0) ∧
      p'.frame.blocks = p.frame.blocks ∧
      ∃ below, p'.frame.stack =
          (f.openBlock name result).1.register.toList.map .register ++ below ∧
        List.Forall₂ (Carried (Arrives env i p) f p'.frame) f.stack below := by
  obtain ⟨hwide, lines, hk⟩ := keeps_of_ok hok
  have hbehind := carrying_walk.instr i hi (ha.poised hs) hwide hk.writes
  obtain ⟨below, hstack, hc⟩ := hbehind.stack
  have hlength := hc.carried.length_eq
  refine ⟨?_, hbehind.blocks.trans (Moved.opening _ _).blocks, below, hstack, hc.carried⟩
  rw [depth, depth, hstack, List.length_append, List.length_map, length_register_openBlock,
    hlength]
  omega

theorem stack_structured_reassigned :
    let env : Env := { options := {}, registry := { types := [⟨[.i32], [.i32]⟩] } }
    let i : Instr := .block 2 (some .i32) [.leaf 4 (.localGet 1), .leaf 6 (.localTee 0),
      .loop 8 none [.leaf 10 (.localGet 0), .leaf 12 (.brIf 0)]]
    ∃ e p p', Starts env reassigned.body e ∧ BodyArrives env reassigned.body e i p ∧
      instr env i p = .ok () p' ∧ p'.frame.depth = p.frame.begun.depth + 1 ∧
      p'.frame.blocks = p.frame.blocks ∧
      List.Forall₂ (Carried (Arrives env i p) p.frame.begun p'.frame) p.frame.begun.stack
        p'.frame.stack.tail := by
  intro env i
  obtain ⟨e, hs⟩ := exists_starts env "f" reassigned ⟨[.i32], [.i32]⟩
  obtain ⟨p, hp⟩ : ∃ p, BodyArrives env reassigned.body e i p :=
    arrives_walk.body reassigned.body rfl i (by simp [reassigned, bodySubterms, subterms, i]) e
  obtain ⟨_, g, lines, hk⟩ : Succeeds _ _ (instr env i) p.frame [] [] :=
    succeeds_walk.instr i rfl p.frame
  obtain ⟨p', hok, -⟩ := hk.writes p rfl
  obtain ⟨hdepth, hblocks, below, hstack, hcarried⟩ := stack_structured hs hp rfl hok
  refine ⟨e, p, p', hs, hp, hok, hdepth, hblocks, ?_⟩
  rw [hstack]
  exact hcarried

end Emit

end Moonstack
