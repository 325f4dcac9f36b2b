import Moonstack.Proofs.Emission.Abreast
import Moonstack.Proofs.Emission.Arrivals
import Moonstack.Proofs.Emission.Natural

/-!
# Instructions in lockstep

Every instruction without a body takes emissions that are abreast to such emissions (`goes_op`), or
fails in both runs with one failure, and so does every part of a structured instruction. What an
instruction does depends on the operand stack, the locals and the blocks, which the runs share, and
never on a slot.
-/

namespace Moonstack

namespace Emit

open Registers Moonstack.Frame Emission

variable {α β : Type} {history later : List Event} {held : List RegisterId}
  {blocks : List Block} {e e' : Emission}
variable {v v' : Operand} {b : Block}

theorem goes_temporaries (h : Abreast history held blocks e e') (n : Nat) :
    Goes history blocks (fun ids => ids ++ held) kept (temporaries n) (temporaries n) e e' := by
  induction n generalizing history held e e' with
  | zero => exact .pure h fun _ _ => rfl
  | succ n ih =>
    refine goes_result h fun _ hd => (ih hd).bind fun _ hd hids => ?_
    exact .pure (hd.perm List.perm_middle) fun _ _ => congrArg (_ :: ·) hids.eq

/-- The slots of registers in hand. -/
theorem follows_slots {ids : List RegisterId} (h : Abreast history (ids ++ held) blocks e e') :
    Follows history List.map (ids.map e.frame.registers.slotOf)
      (ids.map e'.frame.registers.slotOf) := by
  intro ρ hρ
  rw [List.map_map]
  refine List.map_congr_left fun id hid => ?_
  obtain ⟨a, ha, -⟩ := h.owned.kept (List.mem_append_right _ (List.mem_append_left _ hid))
  exact h.frames.slotOf ha hρ

theorem goes_perform {t : Task} (hn : t.toPlain.Natural) : InStep (perform t) := by
  intro _ held _ _ _ h
  refine (InStep.forM t.notices goes_warn h).bind fun _ hd _ => ?_
  refine (goes_temporaries hd t.pushes).bind fun {ids _ _ _ _} _ hd hids => ?_
  rw [← hids.eq]
  refine (goes_popMany hd t.pops).bind fun _ hd hxs => ?_
  refine (InStep.forM t.warnings goes_warn hd).bind fun hp hd _ => goes_frame ?_
  refine Goes.bind (goes_lines hd fun ρ hρ => ?_) fun {_ _ _ d _} _ hd _ => ?_
  · rw [hxs.mono hp ρ hρ, follows_slots hd ρ hρ]
    exact hn.rename ρ _ _
  · have hids := keeps_pushAll d.frame held ids
    have hliterals := keeps_pushLiterals (ids.foldl Frame.pushRegister d.frame) held t.literals
    obtain ⟨later, hp, ht⟩ := hd.frames.pushAll hd.owned
    exact (turns_change _).goes hd (hids.moved.trans hliterals.moved) (ht.pushLiterals _) hp
      (hliterals.owned (hids.owned hd.owned)) (follows_unit _)

theorem goes_convert (c : Conversion) : InStep (convert c) := fun _ _ _ _ _ h =>
  (goes_peek h 0).bind fun _ hd _ => goes_perform (Plain.natural_conversion c) hd

/-- A place to resume at is noted. -/
theorem goes_site (site : ResumeSite) :
    InStep (change fun f => { f with sites := f.sites.push site }) := fun _ _ _ _ _ h =>
  Both.of_ok rfl rfl ⟨_, List.prefix_refl _,
    h.turned (h.frames.map (fun f => { f with sites := f.sites.push site }) fun _ _ _ => rfl)
      (List.prefix_refl _) (h.owned.congr rfl rfl rfl rfl rfl rfl rfl) h.blocks, follows_unit _⟩

theorem goes_savePlace (handle : String) (offset : Nat) : InStep (savePlace handle offset) := by
  intro _ _ _ _ _ h
  refine goes_result h fun _ hd => ?_
  refine (goes_pop hd).bind fun _ hd hv => ?_
  refine goes_frame (Goes.bind (goes_line hd fun ρ hρ => ?_) fun _ hd _ => ?_)
  · rw [hv ρ hρ]
    exact .record (jumpPlace handle _) _ _ _
  refine (goes_fixed (fun _ => rfl) hd).bind fun _ hd _ => ?_
  obtain ⟨a, ha, -⟩ := hd.owned.held_live
  refine Goes.bind (goes_assign hd ha fun _ _ => rfl) fun _ hd _ => ?_
  refine (goes_pushHeld hd).bind fun _ hd _ => goes_frame ?_
  rw [← hd.frames.same Frame.inLoop fun _ _ _ => rfl]
  simp only
  split
  · exact ((goes_warn _).seq (goes_site _)) hd
  · exact goes_site _ hd

theorem goes_ret (h : Abreast history held blocks e e') {vs vs' : List Operand}
    (hvs : Follows history (fun ρ => List.map (Operand.rename ρ)) vs vs') :
    Goes history blocks (fun _ => held) kept (stmt (.ret vs)) (stmt (.ret vs')) e e' :=
  goes_stmt h fun ρ hρ => congrArg Stmt.ret (hvs ρ hρ)

theorem goes_peekMany (h : Abreast history held blocks e e') (n : Nat) :
    Goes history blocks (fun _ => held) (fun ρ => List.map (Operand.rename ρ)) (peekMany n)
      (peekMany n) e e' := by
  induction n generalizing history e e' with
  | zero => exact .pure h fun _ _ => rfl
  | succ n ih =>
    refine (goes_peek h n).bind fun _ hd ho => ?_
    refine (ih hd).bind fun hp hd hrest => .pure hd fun ρ hρ => ?_
    rw [ho.mono hp ρ hρ, hrest ρ hρ]
    rfl

theorem goes_leaveFunction : InStep leaveFunction := by
  intro _ _ _ _ _ h
  refine goes_frame ?_
  rw [← h.frames.same Frame.resultTypes fun _ _ _ => rfl]
  exact (goes_peekMany h _).bind fun _ hd hvs => goes_ret hd hvs

theorem goes_finishFunction : InStep finishFunction := by
  intro _ _ _ _ _ h
  refine goes_frame ?_
  rw [← h.frames.same Frame.resultTypes fun _ _ _ => rfl,
    ← h.frames.depth]
  split
  · exact (goes_popMany h _).bind fun _ hd hvs => goes_ret hd hvs
  · exact .pure h (follows_unit _)

/-- The register of an open block is live. -/
theorem live_of_block (h : Abreast history held blocks e e') (hb : b ∈ blocks) {id : RegisterId}
    (hid : b.register = some id) : ∃ a, e.frame.registers.get? id = some a ∧ a.live = true := by
  obtain ⟨a, ha, hl, -⟩ :=
    h.owned.kept (List.mem_append_left _ (List.mem_filterMap.2 ⟨b, h.blocks ▸ hb, hid⟩))
  exact ⟨a, ha, hl⟩

theorem goes_branch (depth : Nat) : InStep (branch depth) := by
  intro _ _ blocks e e' h
  refine goes_frame ?_
  rw [← h.frames.blocks, h.blocks]
  cases hb : blocks[depth]? with
  | none =>
    simp only
    split
    · exact goes_leaveFunction h
    · exact ((goes_warn _).seq (goes_fixed fun _ => rfl)) h
  | some target =>
    simp only
    cases hr : target.branchRegister with
    | none => exact goes_fixed (fun _ => rfl) h
    | some id =>
      have hid : target.register = some id := by
        unfold Block.branchRegister at hr
        split at hr
        · cases hr
        · exact hr
        · exact hr
      obtain ⟨a, ha, hl⟩ := live_of_block h (List.mem_of_getElem? hb) hid
      obtain ⟨ht, -⟩ := h.frames.peek h.owned 0
      refine .of_run (run_step _ e) (run_step _ e') (List.prefix_refl _) ?_
      rw [peek_zero, peek_zero]
      exact goes_topCopy h (later_peek _ 0) (later_peek _ 0) (List.prefix_refl _)
        (h.moved (.peek _ 0) ht (List.prefix_refl _) (h.owned.peek 0)) ha hl
        fun hd => goes_fixed (fun _ => rfl) hd

theorem InStep.inset {x : Emit Unit} (hx : InStep x) : InStep (inset x) :=
  goes_deeper.seq (hx.seq goes_shallower)

theorem goes_branchIf (depth : Nat) : InStep (branchIf depth) := by
  intro _ _ _ _ _ h
  refine (goes_pop h).bind fun _ hd hv => ?_
  refine Goes.bind (goes_code hd fun ρ hρ => ?_) fun _ hd _ => ?_
  · rw [hv ρ hρ]
    rfl
  exact ((goes_branch depth).inset.seq (goes_fixed fun _ => rfl)) hd

/-- From a history on, two computations are abreast. -/
def Joint (history : List Event) (held : List RegisterId) (blocks : List Block) (x y : Emit Unit) :
    Prop :=
  ∀ ⦃later e e'⦄, history <+: later → Abreast later held blocks e e' →
    Goes later blocks (fun _ => held) kept x y e e'

namespace Joint

variable {x x' y y' : Emit Unit}

theorem of_inStep (hx : InStep x) : Joint history held blocks x x := fun _ _ _ _ h => hx h

theorem seq (hx : Joint history held blocks x y) (hx' : Joint history held blocks x' y') :
    Joint history held blocks (do x; x') (do y; y') := fun _ _ _ hp h =>
  (hx hp h).bind fun hp' hd _ => hx' (hp.trans hp') hd

theorem inset (hx : Joint history held blocks x y) :
    Joint history held blocks (Emit.inset x) (Emit.inset y) :=
  (of_inStep goes_deeper).seq (hx.seq (of_inStep goes_shallower))

end Joint

theorem goes_choose (hv : Follows history Operand.rename v v') (c : Choice) (behind : Bool) :
    Joint history held blocks (choose v c behind) (choose v' c behind) := by
  have hfixed {l : Line} (hl : ∀ ρ, l = l.rename ρ) : Joint history held blocks (line l) (line l) :=
    .of_inStep (goes_fixed hl)
  induction c generalizing behind with
  | go depth =>
    cases behind with
    | false => exact .of_inStep (goes_branch depth)
    | true => exact (hfixed (l := .otherwise) fun _ => rfl).seq (.of_inStep (goes_branch depth).inset)
  | test joins t yes no ihyes ihno =>
    have hcondition (ρ : Nat → Nat) : t.condition (v'.rename ρ) = (t.condition v').rename ρ := by
      cases t <;> rfl
    have harms := (ihyes false).inset.seq (ihno true)
    have hif : Joint history held blocks (line (.ifThen (t.condition v)))
        (line (.ifThen (t.condition v'))) := fun _ _ _ hp h => goes_code h fun ρ hρ => by
      rw [hv.mono hp ρ hρ, hcondition]
      rfl
    have hwhole := hif.seq (harms.seq (hfixed (l := .close) fun _ => rfl))
    rw [choose, choose]
    split
    · exact hwhole
    · split
      · refine Joint.seq (fun _ _ _ hp h => goes_code h fun ρ hρ => ?_) harms
        rw [hv.mono hp ρ hρ, hcondition]
        rfl
      · exact (hfixed (l := .otherwise) fun _ => rfl).seq hwhole.inset

theorem goes_branchTable (env : Env) (targets : List Nat) (fallback : Nat) :
    InStep (branchTable env targets fallback) := by
  intro _ _ _ _ _ h
  unfold branchTable
  simp only
  split
  · exact rfl
  exact (goes_pop h).bind fun _ hd hv => goes_choose hv _ false (List.prefix_refl _) hd

/-- **Instructions are written in step under both strategies.** -/
theorem goes_op (env : Env) (offset : Nat) (o : Op) : InStep (op env offset o) := by
  cases ht : o.task env with
  | some t => exact op_eq_perform ht offset ▸ goes_perform (Op.natural_task ht)
  | none =>
    cases Op.special_of_task ht with
    | br depth => exact goes_branch depth
    | brIf depth => exact goes_branchIf depth
    | brTable targets fallback => exact goes_branchTable env targets fallback
    | ret => exact goes_leaveFunction
    | localGet index => exact goes_localGet index
    | localSet index => exact goes_localSet index false
    | localTee index => exact goes_localSet index true
    | convert c => exact goes_convert c
    | setjmp hs hm => exact op_eq_savePlace hs hm offset ▸ goes_savePlace _ offset

theorem goes_zeroLocals (h : Abreast history held blocks e e') {indices : List Nat}
    (hi : ∀ index ∈ indices, index < e.frame.localTypes.length) :
    Goes history blocks (fun _ => held) kept (zeroLocals indices) (zeroLocals indices) e e' := by
  induction indices generalizing history e e' with
  | nil => exact .pure h (follows_unit _)
  | cons index rest ih =>
    refine goes_frame ?_
    rw [← h.frames.same Frame.localTypes fun _ _ _ => rfl]
    refine goes_localRegister h (hi index List.mem_cons_self) fun {later id} _ hd hb => ?_
    obtain ⟨a, ha, -⟩ := hd.owned.bound hb
    have hline := hd.assigned ha fun ρ _ =>
      (ValueType.rename_zero ρ ((e.frame.localTypes[index]?).getD .i32)).symm
    obtain ⟨last, hp, ht⟩ := hd.frames.accessed index
    refine .of_run rfl rfl (List.prefix_refl _)
      (.of_run (turns_attempt' (fun f => f.afterLocalAccess_eq index) _)
        (turns_attempt' (fun f => f.afterLocalAccess_eq index) _) hp (ih
          (hline.moved (.accessed _ index) ht hp (hd.owned.accessed index)) fun j hj => ?_))
    rw [show ((e.frame.localRegister index).2.accessed index).localTypes = e.frame.localTypes from
      ((Moved.localRegister e.frame index).trans (Moved.accessed _ index)).localTypes]
    exact hi j (List.mem_cons_of_mem _ hj)

theorem goes_begin (i : Instr) : InStep (begin i) := by
  intro _ _ _ _ _ h
  refine (goes_tick h).bind fun _ hd _ => goes_frame ?_
  rw [← hd.frames.same Frame.lifetimes fun _ _ _ => rfl,
    ← hd.frames.same Frame.clock fun _ _ _ => rfl, ← hd.frames.debug]
  refine Goes.bind (goes_zeroLocals hd fun index hi => ?_) fun _ hd _ => ?_
  · obtain ⟨p, hp, rfl⟩ := List.mem_map.1 hi
    exact hd.owned.forced p (List.mem_filter.1 hp).1
  · split
    · exact goes_fixed (fun _ => rfl) hd
    · exact .pure hd (follows_unit _)

/-- Debug comments are written out. -/
theorem goes_remarks (h : Abreast history held blocks e e') {notes notes' : List String}
    (hn : ∀ ρ, Places history ρ → List.Forall₂ (Remark.Renamed ρ) notes notes') :
    Goes history blocks (fun _ => held) kept (notes.forM fun note => line (.comment note))
      (notes'.forM fun note => line (.comment note)) e e' := by
  induction notes' generalizing notes history e e' with
  | nil =>
    obtain rfl := List.forall₂_nil_right_iff.1 (hn _ (places_slotOf history))
    exact .pure h (follows_unit _)
  | cons note' rest' ih =>
    obtain ⟨note, rest, -, -, rfl⟩ := List.forall₂_cons_right_iff.1 (hn _ (places_slotOf history))
    refine Goes.bind (goes_line h fun ρ hρ => ?_) fun hp hd _ => ih hd fun ρ hρ => ?_
    · exact .renamed (.remark (List.forall₂_cons.1 (hn ρ hρ)).1)
    · exact (List.forall₂_cons.1 (hn ρ (hρ.mono hp))).2

theorem goes_finish : InStep finish := by
  intro _ _ _ _ _ h
  refine goes_frame ?_
  have hd := h.turned h.frames.unnoted (List.prefix_refl _)
    (h.owned.congr rfl rfl rfl rfl rfl rfl rfl) h.blocks
  refine .of_run rfl rfl (List.prefix_refl _) ?_
  rw [forM_toList, forM_toList]
  refine Goes.bind (goes_remarks hd fun ρ hρ => h.frames.notes hρ) fun _ hd _ =>
    goes_frame ?_
  rw [← hd.frames.debug, ← hd.frames.depth]
  split
  · exact ((goes_fixed fun _ => rfl).seq goes_drained) hd
  · exact goes_drained hd

/-- The test of an `if`. -/
theorem goes_guard (h : Abreast history held blocks e e') (hv : Follows history Operand.rename v v')
    (target : Label) :
    Goes history blocks (fun _ => held) kept
      (line (.guard (.binary .eq (.operand v) (.number 0)) (.goto target)))
      (line (.guard (.binary .eq (.operand v') (.number 0)) (.goto target))) e e' := by
  refine goes_code h fun ρ hρ => ?_
  rw [hv ρ hρ]
  rfl

theorem goes_dropRest (b : Block) : InStep (dropRest b) := by
  intro _ _ _ _ _ hd
  refine goes_frame ?_
  rw [← hd.frames.depth]
  simp only
  split
  · refine (goes_warn _ hd).bind fun _ hd _ => ?_
    exact (goes_popMany hd _).bind fun _ hd _ => .pure hd (follows_unit _)
  · exact .pure hd (follows_unit _)

theorem goes_settleArm (h : Abreast history held blocks e e') (hb : b ∈ blocks) :
    Goes history blocks (fun _ => held) kept (settleArm b) (settleArm b) e e' := by
  unfold settleArm
  cases hr : b.register with
  | none => exact goes_dropRest b h
  | some id =>
    refine goes_frame ?_
    rw [← h.frames.depth]
    split
    · obtain ⟨a, ha, hl⟩ := live_of_block h hb hr
      exact goes_popCopy h ha hl fun hd => goes_dropRest b hd
    · exact goes_dropRest b h

/-- The turn to the alternative of an `if`. -/
theorem goes_alternative {outer : List Block} (h : Abreast history held (b :: outer) e e') :
    Goes history ({ b with inElse := true } :: outer) (fun _ => held) kept (alternative b)
      (alternative b) e e' := by
  refine (goes_tick h).bind fun _ hd _ => (goes_settleArm hd List.mem_cons_self).bind fun _ hd _ => ?_
  refine (goes_fixed (fun _ => rfl) hd).bind fun _ hd _ => (goes_shallower hd).bind fun _ hd _ => ?_
  refine (goes_fixed (fun _ => rfl) hd).bind fun _ hd _ =>
    (goes_deeper hd).bind fun {_ _ last d d'} _ hd _ => ?_
  have halt {f : Frame} (hf : f.blocks = b :: outer) :
      f.inAlternative = { f with blocks := { b with inElse := true } :: outer } := by
    rw [inAlternative, hf]
  have hturn : Abreast last held ({ b with inElse := true } :: outer)
      { d with frame := d.frame.inAlternative } { d' with frame := d'.frame.inAlternative } := by
    rw [halt hd.blocks, halt ((hd.frames.blocks).symm.trans hd.blocks)]
    refine hd.turned (hd.frames.map (fun f => { f with blocks := _ }) fun _ _ _ => rfl)
      (List.prefix_refl _) (hd.owned.reblock ?_) rfl
    rw [hd.blocks]
    rfl
  exact Both.of_ok rfl rfl ⟨last, List.prefix_refl _, hturn, follows_unit _⟩

theorem goes_checkDepth (b : Block) (expected : Nat) : InStep (checkDepth b expected) := by
  intro _ _ _ _ _ h
  refine goes_frame ?_
  rw [← h.frames.depth, ← h.frames.same Frame.id fun _ _ _ => rfl]
  split
  · exact .throw _
  · exact .pure h (follows_unit _)

section

variable {b : Block} {outer : List Block} (h : Abreast history held (b :: outer) e e')
include h

theorem goes_forgetBlock :
    Goes history outer (fun _ => held) kept (forgetBlock b) (forgetBlock b) e e' := by
  refine (goes_fixed (fun _ => rfl) h).bind fun _ hd _ => ?_
  have hlast := hd.turned (hd.frames.map Frame.dropBlock fun _ _ _ => rfl) (List.prefix_refl _)
    (hd.owned.dropBlock hd.blocks) (congrArg List.tail hd.blocks)
  refine .of_run rfl rfl (List.prefix_refl _) ?_
  cases hr : b.register with
  | none =>
    rw [hr] at hlast
    exact goes_checkDepth b _ hlast
  | some id =>
    rw [hr] at hlast
    exact (goes_pushHeld hlast).bind fun _ hd _ => goes_checkDepth b _ hd

theorem goes_leaveBlock :
    Goes history outer (fun _ => held) kept (leaveBlock b) (leaveBlock b) e e' := by
  unfold leaveBlock
  split
  · exact (goes_fixed (fun _ => rfl) h).bind fun _ hd _ => (goes_shallower hd).bind fun _ hd _ =>
      (goes_fixed (fun _ => rfl) hd).bind fun _ hd _ => goes_forgetBlock hd
  · exact (goes_shallower h).bind fun _ hd _ => goes_forgetBlock hd

theorem goes_closeBlock : Goes history outer (fun _ => held) kept closeBlock closeBlock e e' := by
  refine (goes_tick h).bind fun _ hd _ => goes_frame ?_
  rw [← hd.frames.blocks, hd.blocks]
  refine (goes_settleArm hd List.mem_cons_self).bind fun _ hd _ => ?_
  simp only
  split
  · exact (goes_warn _ hd).bind fun _ hd _ => goes_leaveBlock hd
  · exact goes_leaveBlock hd

end

/-! ## Stages -/

/-- The runs fail alike, or leave emissions that are abreast, whatever blocks are open. -/
def Strides (history : List Event) (held : List RegisterId) (x y : Emit Unit) (e e' : Emission) :
    Prop :=
  Both x y e e' fun _ _ d d' => ∃ later blocks, history <+: later ∧ Abreast later held blocks d d'

theorem Goes.strides {ren : (Nat → Nat) → Unit → Unit} {x y : Emit Unit}
    (h : Goes history blocks (fun _ => held) ren x y e e') : Strides history held x y e e' :=
  h.mono fun _ _ _ _ ⟨later, hp, hd, _⟩ => ⟨later, blocks, hp, hd⟩

theorem Goes.stride {α : Type} {held' : α → List RegisterId} {ren : (Nat → Nat) → α → α}
    {x y : Emit α} {k l : α → Emit Unit} (hx : Goes history blocks held' ren x y e e')
    (hk : ∀ {a b later d d'}, history <+: later → Abreast later (held' a) blocks d d' →
      Follows later ren a b → Strides later held (k a) (l b) d d') :
    Strides history held (x >>= k) (y >>= l) e e' := by
  refine Both.bind hx fun a b d d' ⟨later, hp, hd, hab⟩ => ?_
  refine (hk hp hd hab).mono fun _ _ _ _ ⟨last, blocks, hp', hlast⟩ => ?_
  exact ⟨last, blocks, hp.trans hp', hlast⟩

theorem goes_openBlock (h : Abreast history held blocks e e') (name : BlockName)
    (result : Option ValueType) :
    Goes history ((e.frame.openBlock name result).1 :: blocks) (fun _ => held) kept
      (openBlock name result) (openBlock name result) e e' := by
  obtain ⟨hb, later, hp, ht⟩ := h.frames.openBlock name result
  have hblocks := (Within.opened e.frame name result).blocks.trans (congrArg _ h.blocks)
  exact Both.of_ok rfl rfl
    ⟨later, hp, h.turned ht hp (h.owned.openBlock name result) hblocks, follows_eq _ hb⟩

theorem strides_enterBlock (h : Abreast history held blocks e e') (name : BlockName)
    (result : Option ValueType) :
    Strides history held (enterBlock name result) (enterBlock name result) e e' := by
  refine (goes_openBlock h name result).stride fun _ hd hb => ?_
  cases hb.eq
  by_cases hl : name.kind = .loop
  · simp only [if_pos hl]
    exact Goes.strides ((goes_fixed (fun _ => rfl) hd).bind fun _ hd _ =>
      (goes_fixed (fun _ => rfl) hd).bind fun _ hd _ => goes_deeper hd)
  · simp only [if_neg hl]
    exact (goes_deeper hd).strides

theorem strides_enterIf (h : Abreast history held blocks e e') (offset : Nat)
    (result : Option ValueType) (skip : BlockName → Label) :
    Strides history held (do let _ ← enterIf offset result skip)
      (do let _ ← enterIf offset result skip) e e' := by
  simp only [enterIf, bind_assoc, pure_bind]
  refine (goes_pop h).stride fun _ hd hc => (goes_openBlock hd _ result).stride fun hp hd hb => ?_
  cases hb.eq
  exact Goes.strides ((goes_guard hd (hc.mono hp) _).bind fun _ hd _ =>
    (goes_deeper hd).bind fun _ hd _ => .pure hd (follows_unit _))

/-- Where no block is open, the runs fail alike. -/
theorem goes_noOpenBlock (h : Abreast history held [] e e') {x : Block → Emit Unit} :
    Goes history [] (fun _ => held) kept (do
      match (← frame).blocks with
      | [] => throw (.of (.noOpenBlock (← frame).id))
      | b :: _ => x b) (do
      match (← frame).blocks with
      | [] => throw (.of (.noOpenBlock (← frame).id))
      | b :: _ => x b) e e' := by
  refine goes_frame ?_
  rw [← h.frames.blocks, h.blocks]
  refine goes_frame ?_
  rw [← h.frames.same Frame.id fun _ _ _ => rfl]
  exact .throw _

theorem strides_turn (h : Abreast history held blocks e e') :
    Strides history held turn turn e e' := by
  cases blocks with
  | nil => exact (goes_noOpenBlock h).strides
  | cons b outer =>
    have hturn : Goes history ({ b with inElse := true } :: outer) (fun _ => held) kept turn turn e e'
        := by
      refine goes_frame ?_
      rw [← h.frames.blocks, h.blocks]
      exact goes_alternative h
    exact hturn.strides

theorem strides_leave (h : Abreast history held blocks e e') :
    Strides history held leave leave e e' := by
  cases blocks with
  | nil =>
    have hclose : Goes history [] (fun _ => held) kept closeBlock closeBlock e e' :=
      (goes_tick h).bind fun _ hd _ => goes_noOpenBlock hd
    exact Goes.strides (hclose.bind fun _ hd _ => goes_finish hd)
  | cons b outer => exact Goes.strides ((goes_closeBlock h).bind fun _ hd _ => goes_finish hd)

/-- **The two writings take every stage alike.** -/
theorem strides_stage {env env' : Env} (hop : ∀ offset o, op env offset o = op env' offset o)
    (s : Instr.Stage) (h : Abreast history held blocks e e') :
    Strides history held (stage env s) (stage env' s) e e' := by
  cases s with
  | entry i => exact (goes_begin i h).strides
  | inside i =>
    cases i with
    | leaf offset o =>
      simp only [stage, hop]
      exact (((goes_op env' offset o).seq goes_finish) h).strides
    | block offset result inner | loop offset result inner =>
      exact strides_enterBlock h _ result
    | ifThen offset result inner | ifElse offset result inner other =>
      exact strides_enterIf h offset result _
  | turn i => exact strides_turn h
  | close i => exact strides_leave h
  | behind i => exact Goes.strides (.pure h (follows_unit _))

end Emit

end Moonstack
