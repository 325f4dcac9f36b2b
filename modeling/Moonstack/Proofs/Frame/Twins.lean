import Mathlib.Data.List.Forall2
import Moonstack.Proofs.Code.Renaming
import Moonstack.Proofs.Frame.Histories
import Moonstack.Proofs.Frame.Moved

/-!
# Twin frames

Two frames in the writing of one function, the first under the pooled strategy and the second under
the virtual one. `Frame.Twins history f g` says that they are the same but for slots: their registers
come from one history, and their debug comments differ in slots only.

Every frame operation takes twins to twins, with more of the history behind them (`TwinsBehind`).
No decision of an operation depends on a slot. The writing of code compares slots in one place, where
it asks whether the operand on top is already in the slot of a register; that the answers agree for a
live register is `Twins.top_eq_slot_iff`.
-/

namespace Moonstack.Frame

open Registers

variable {a : Register} {ρ : Nat → Nat}

/-- The frame with other registers and other debug comments. -/
def dress (f : Frame) (registers : Registers) (notes : Array String) : Frame :=
  { f with registers, notes }

/-- The frames are the same but for slots, and their registers come from the history. -/
inductive Twins (history : List Event) : Frame → Frame → Prop
  | intro (base : Frame) {notes notes' : Array String}
      (h : ∀ ρ, Places history ρ → List.Forall₂ (Remark.Renamed ρ) notes.toList notes'.toList) :
      Twins history (base.dress (run .pooled history) notes)
        (base.dress (run .virtual history) notes')

def TwinsBehind (history : List Event) (f g : Frame) : Prop :=
  ∃ later, history <+: later ∧ Twins later f g

/-- The frame without what depends on slots. -/
def bare (f : Frame) : Frame := { f with registers := f.registers.bare, notes := #[] }

/-! ## Operations as events -/

/-- The frame after events of its registers. -/
def undergo (f : Frame) (es : List Event) : Frame :=
  { f with registers := es.foldl after f.registers }

theorem temporary_undergo (f : Frame) : f.temporary = (f.registers.arena.size,
    (f.undergo [.create none none none]).noteIf f.debug.registers
      (Remark.alloc ((f.undergo [.create none none none]).registers.slotOf
        f.registers.arena.size)).text) := by
  rw [← create_fst f.registers none none none]
  rfl

theorem localRegister_undergo {f : Frame} {index : Nat} (h : (f.locals[index]?).join = none) :
    f.localRegister index = (f.registers.arena.size,
      ({ f with locals := f.locals.modify index fun _ => some f.registers.arena.size }.undergo
          [.create (some index) (some f.clock) (f.lifetimes.lastRef index)]).noteIf
        f.debug.registers (Remark.bind index ((f.undergo
          [.create (some index) (some f.clock) (f.lifetimes.lastRef index)]).registers.slotOf
            f.registers.arena.size)).text) := by
  rw [← create_fst f.registers (some index) (some f.clock) (f.lifetimes.lastRef index)]
  unfold localRegister
  rw [h]
  rfl

theorem freeNote_eq (f : Frame) (id : RegisterId) (a : Register) : f.freeNote id a =
    (Remark.free (f.registers.slotOf id) a.boundTo a.firstRef a.lastRef).text := by
  unfold freeNote Remark.text
  cases a.boundTo <;> cases a.firstRef <;> rfl

theorem surrender_undergo {f : Frame} {id : RegisterId} (ha : f.registers.get? id = some a)
    (hl : a.live = true) : f.surrender id a =
      ((f.unbind a.boundTo id).noteIf f.debug.registers
        (Remark.free (f.registers.slotOf id) a.boundTo a.firstRef a.lastRef).text).undergo
          [.free id] := by
  have hdebug : (f.unbind a.boundTo id).debug = f.debug := by
    cases a.boundTo <;> rfl
  have hfree : (f.registers.after (.free id)) = f.registers.freed id a := after_free_of_live ha hl
  unfold surrender undergo
  simp only [List.foldl_cons, List.foldl_nil, registers_noteIf, registers_unbind, hfree, hdebug,
    freeNote_eq]

theorem pushRegister_undergo (f : Frame) (id : RegisterId) : f.pushRegister id =
    ({ f with stack := Entry.register id :: f.stack }.noteIf f.debug.stack
      (Remark.push (.slot (f.registers.slotOf id))).text).undergo [.hold id] := by
  unfold pushRegister
  simp only [noteIf_eq]
  rfl

/-- The frame with the stack entries of a register moved to a copy. -/
def redirected (f : Frame) (id copy : RegisterId) : Frame :=
  { f with stack := f.stack.map fun e => if e = .register id then .register copy else e }

/-- The events of moving the stack entries of a register to a copy. -/
def detachment (f : Frame) (id : RegisterId) : List Event :=
  [.create none none none, .refer id 0, .refer f.registers.arena.size
    (((f.registers.get? id).map Register.stackRefs).getD 0)]

theorem detachAliases_undergo (f : Frame) (id : RegisterId) : f.detachAliases id =
    if ((f.registers.get? id).map Register.stackRefs).getD 0 = 0 then (none, f)
    else
      (some (.assign [.slot ((f.undergo (f.detachment id)).registers.slotOf f.registers.arena.size)]
          (.slot ((f.undergo (f.detachment id)).registers.slotOf id))),
        (f.redirected id f.registers.arena.size).undergo (f.detachment id)) := by
  unfold detachAliases detachment
  rw [← create_fst f.registers none none none]
  rfl

namespace Twins

variable {history : List Event} {f g : Frame} {id : RegisterId}

variable (h : Twins history f g)
include h

theorem pooled : f.registers = run .pooled history := by
  cases h
  rfl

theorem virtual : g.registers = run .virtual history := by
  cases h
  rfl

theorem notes (hρ : Places history ρ) :
    List.Forall₂ (Remark.Renamed ρ) f.notes.toList g.notes.toList := by
  obtain ⟨base, hnotes⟩ := h
  exact hnotes ρ hρ

/-- Twins agree on everything that looks at neither registers nor debug comments. -/
theorem same {α : Type} (p : Frame → α)
    (hp : ∀ f registers notes, p (f.dress registers notes) = p f) : p f = p g := by
  obtain ⟨base, hnotes⟩ := h
  exact (hp base _ _).trans (hp base _ _).symm

theorem bare_eq : f.bare = g.bare := by
  obtain ⟨base, hnotes⟩ := h
  simp only [bare, dress, bare_run]

theorem behind : TwinsBehind history f g :=
  ⟨history, List.prefix_refl _, h⟩

/-! ## Small steps -/

/-- A change that looks at neither registers nor debug comments. -/
theorem map (u : Frame → Frame)
    (hu : ∀ f registers notes, u (f.dress registers notes) = (u f).dress registers notes) :
    Twins history (u f) (u g) := by
  obtain ⟨base, hnotes⟩ := h
  rw [hu, hu]
  exact .intro (u base) hnotes

theorem noteIf {wanted wanted' : Bool} (hw : wanted = wanted') {s t : String}
    (hst : ∀ ρ, Places history ρ → Remark.Renamed ρ s t) :
    Twins history (f.noteIf wanted s) (g.noteIf wanted' t) := by
  subst hw
  obtain ⟨base, hnotes⟩ := h
  cases wanted with
  | false => exact .intro base hnotes
  | true =>
    refine .intro base fun ρ hρ => ?_
    rw [Array.toList_push, Array.toList_push]
    exact List.rel_append (hnotes ρ hρ) (.cons (hst ρ hρ) .nil)

/-- The debug comments are written out. -/
theorem unnoted : Twins history { f with notes := #[] } { g with notes := #[] } := by
  obtain ⟨base, -⟩ := h
  exact .intro base fun _ _ => .nil

theorem undergo (es : List Event) : Twins (history ++ es) (f.undergo es) (g.undergo es) := by
  obtain ⟨base, hnotes⟩ := h
  change Twins _ (base.dress (es.foldl after (run .pooled history)) _)
    (base.dress (es.foldl after (run .virtual history)) _)
  rw [← run_append, ← run_append]
  exact .intro base fun ρ hρ => hnotes ρ (hρ.mono (List.prefix_append _ _))

end Twins

namespace TwinsBehind

variable {history later : List Event} {f g : Frame}

theorem of_append {es : List Event} (h : Twins (history ++ es) f g) : TwinsBehind history f g :=
  ⟨_, List.prefix_append _ _, h⟩

theorem mono (h : TwinsBehind later f g) (hp : history <+: later) : TwinsBehind history f g := by
  obtain ⟨last, hl, ht⟩ := h
  exact ⟨last, hp.trans hl, ht⟩

theorem andThen {f' g' : Frame} (h : TwinsBehind history f g)
    (hn : ∀ later, Twins later f g → TwinsBehind later f' g') : TwinsBehind history f' g' := by
  obtain ⟨later, hp, ht⟩ := h
  exact (hn later ht).mono hp

end TwinsBehind

namespace Twins

variable {history : List Event} {f g : Frame} {id : RegisterId} {held : List RegisterId}

/-! ## Registers -/

variable (h : Twins history f g)
include h

theorem get? (ha : f.registers.get? id = some a) :
    g.registers.get? id = some { a with slot := id } := by
  rw [h.virtual]
  rw [h.pooled] at ha
  exact get?_virtual ha

theorem get?_none (ha : f.registers.get? id = none) : g.registers.get? id = none := by
  rw [h.virtual]
  rw [h.pooled] at ha
  exact get?_virtual_none ha

theorem slotOf (ha : f.registers.get? id = some a) (hρ : Places history ρ) :
    f.registers.slotOf id = ρ (g.registers.slotOf id) := by
  rw [h.pooled] at ha ⊢
  rw [h.virtual]
  exact hρ.slotOf ha

theorem size : f.registers.arena.size = g.registers.arena.size := by
  rw [h.pooled, h.virtual]
  exact size_run history

omit h in
/-- A register that was made. -/
theorem get?_created (f : Frame) (boundTo firstRef lastRef : Option Nat) :
    (f.undergo [.create boundTo firstRef lastRef]).registers.get? f.registers.arena.size =
      some { boundTo, slot := f.registers.takeSlot.1, firstRef, lastRef } := by
  change (f.registers.create boundTo firstRef lastRef).2.get? _ = _
  rw [get?_create, if_pos rfl]

theorem debug : f.debug = g.debug := h.same Frame.debug fun _ _ _ => rfl

theorem stack : f.stack = g.stack := h.same Frame.stack fun _ _ _ => rfl

theorem blocks : f.blocks = g.blocks := h.same Frame.blocks fun _ _ _ => rfl

theorem depth : f.depth = g.depth := h.same Frame.depth fun _ _ _ => rfl

theorem floor : f.floor = g.floor := floor_of_blocks h.blocks

theorem temporary : f.temporary.1 = g.temporary.1 ∧
    TwinsBehind history f.temporary.2 g.temporary.2 := by
  have ht := h.undergo [.create none none none]
  rw [temporary_undergo, temporary_undergo, ← h.size]
  refine ⟨rfl, .of_append (ht.noteIf (by rw [h.debug]) fun ρ hρ => ⟨.alloc _, ?_, rfl⟩)⟩
  rw [ht.slotOf (get?_created f _ _ _) hρ]
  rfl

theorem localRegister (index : Nat) :
    (f.localRegister index).1 = (g.localRegister index).1 ∧
      TwinsBehind history (f.localRegister index).2 (g.localRegister index).2 := by
  have hlocals : f.locals = g.locals := h.same Frame.locals fun _ _ _ => rfl
  have hevent : Event.create (some index) (some g.clock) (g.lifetimes.lastRef index) =
      .create (some index) (some f.clock) (f.lifetimes.lastRef index) := by
    rw [h.same Frame.clock fun _ _ _ => rfl, h.same Frame.lifetimes fun _ _ _ => rfl]
  cases hj : (f.locals[index]?).join with
  | some id =>
    have hj' := hj
    rw [hlocals] at hj'
    unfold Frame.localRegister
    rw [hj, hj']
    exact ⟨rfl, h.behind⟩
  | none =>
    have ht := h.undergo [.create (some index) (some f.clock) (f.lifetimes.lastRef index)]
    have hb := (h.map (fun k => { k with
      locals := k.locals.modify index fun _ => some f.registers.arena.size }) fun _ _ _ => rfl).undergo
        [.create (some index) (some f.clock) (f.lifetimes.lastRef index)]
    rw [localRegister_undergo hj, localRegister_undergo (hlocals ▸ hj), ← h.size, hevent]
    refine ⟨rfl, .of_append (hb.noteIf (by rw [h.debug]) fun ρ hρ => ⟨.bind index _, ?_, rfl⟩)⟩
    rw [ht.slotOf (get?_created f _ _ _) hρ]
    rfl

theorem surrender (ha : f.registers.get? id = some a) (hl : a.live = true) :
    TwinsBehind history (f.surrender id a) (g.surrender id { a with slot := id }) := by
  have hunbind : Twins history (f.unbind a.boundTo id) (g.unbind a.boundTo id) := by
    refine h.map (fun k => k.unbind a.boundTo id) fun k registers notes => ?_
    simp only [unbind_eq, dress]
  rw [surrender_undergo ha hl, surrender_undergo (h.get? ha) hl]
  refine .of_append ((hunbind.noteIf (by rw [h.debug]) fun ρ hρ => ?_).undergo _)
  refine ⟨.free _ a.boundTo a.firstRef a.lastRef, ?_, rfl⟩
  rw [h.slotOf ha hρ]
  rfl

theorem freed (id : RegisterId) : TwinsBehind history (f.freed id) (g.freed id) := by
  unfold Frame.freed
  cases ha : f.registers.get? id with
  | none =>
    rw [h.get?_none ha]
    exact h.behind
  | some a =>
    have houtlives : g.outlives { a with slot := id } = f.outlives a := by
      unfold outlives
      rw [h.same Frame.clock fun _ _ _ => rfl]
    have hpending : f.pending = g.pending := h.same Frame.pending fun _ _ _ => rfl
    rw [h.get? ha]
    simp only [houtlives, ← hpending]
    split
    · exact h.behind
    · rename_i hr
      simp only [Bool.not_eq_true, Bool.or_eq_false_iff, Bool.not_eq_false'] at hr
      split
      · split
        · exact h.behind
        · exact (h.map (fun k => { k with pending := f.pending ++ [id] }) fun _ _ _ => rfl).behind
      · exact h.surrender ha hr.1

theorem freedAll (ids : List RegisterId) :
    TwinsBehind history (f.freedAll ids) (g.freedAll ids) := by
  induction ids generalizing history f g with
  | nil => exact h.behind
  | cons id rest ih => exact (h.freed id).andThen fun _ ht => ih ht

theorem drained : TwinsBehind history f.drained g.drained := by
  have hpending : f.pending = g.pending := h.same Frame.pending fun _ _ _ => rfl
  unfold Frame.drained
  rw [hpending]
  exact (h.map (fun k => { k with pending := [] }) fun _ _ _ => rfl).freedAll g.pending

theorem accessed (index : Nat) : TwinsBehind history (f.accessed index) (g.accessed index) := by
  have hlocals : f.locals = g.locals := h.same Frame.locals fun _ _ _ => rfl
  unfold Frame.accessed
  rw [hlocals]
  cases (g.locals[index]?).join with
  | none => exact h.behind
  | some id => exact h.freed id

/-! ## The operand stack -/

/-- An operand that is on the stack. -/
theorem operand (ho : f.Owned held) {e : Entry} (he : e ∈ f.stack) (hρ : Places history ρ) :
    f.operand e = (g.operand e).rename ρ := by
  cases e with
  | literal l => rfl
  | register id =>
    obtain ⟨a, ha, -⟩ := ho.stacked he
    exact congrArg Operand.slot (h.slotOf ha hρ)

theorem top (ho : f.Owned held) (hρ : Places history ρ) : f.top = g.top.rename ρ := by
  unfold Frame.top
  rw [h.depth, h.floor]
  split
  · rfl
  · rw [← h.stack]
    cases hs : f.stack with
    | nil => rfl
    | cons e rest => exact h.operand ho (hs ▸ List.mem_cons_self) hρ

/-- Whether the operand on top is in the slot of a live register does not depend on the strategy. -/
theorem top_eq_slot_iff (ho : f.Owned held)
    (ha : f.registers.get? id = some a) (hl : a.live = true) :
    f.top = .slot (f.registers.slotOf id) ↔ g.top = .slot (g.registers.slotOf id) := by
  unfold Frame.top
  rw [h.depth, h.floor]
  split
  · exact iff_of_false nofun nofun
  · rw [← h.stack]
    cases hs : f.stack with
    | nil => exact iff_of_false nofun nofun
    | cons e rest =>
      cases e with
      | literal l => exact iff_of_false nofun nofun
      | register j =>
        obtain ⟨b, hb, hlive⟩ := ho.stacked (hs ▸ List.mem_cons_self)
        have hpooled : f.registers.slotOf j = f.registers.slotOf id ↔ j = id := by
          refine ⟨fun he => ?_, congrArg _⟩
          rw [Registers.slotOf, Registers.slotOf, hb, ha] at he
          exact ho.sound.slot_inj hb ha hlive hl he
        have hvirtual : g.registers.slotOf j = g.registers.slotOf id ↔ j = id := by
          rw [Registers.slotOf, Registers.slotOf, h.get? hb, h.get? ha]
          rfl
        simp only [Frame.operand, Operand.slot.injEq, hpooled, hvirtual]

theorem warn (message : String) : Twins history (f.warn message) (g.warn message) :=
  h.map (fun k => k.warn message) fun _ _ _ => rfl

theorem unreferenced (id : RegisterId) :
    Twins (history ++ [.release id]) (f.unreferenced id) (g.unreferenced id) :=
  h.undergo [.release id]

theorem released (id : RegisterId) : TwinsBehind history (f.released id) (g.released id) := by
  have hu := h.unreferenced id
  have hzero : (((g.unreferenced id).registers.get? id).any fun r => r.stackRefs == 0) =
      ((f.unreferenced id).registers.get? id).any fun r => r.stackRefs == 0 := by
    cases ha : (f.unreferenced id).registers.get? id with
    | none => rw [hu.get?_none ha]
    | some a => rw [hu.get? ha]; rfl
  unfold Frame.released
  rw [hzero]
  split
  · exact (hu.freed id).mono (List.prefix_append _ _)
  · exact .of_append hu

theorem dropped : TwinsBehind history f.dropped g.dropped := by
  unfold Frame.dropped
  rw [h.depth, h.floor]
  split
  · exact (h.warn _).behind
  · rw [← h.stack]
    cases f.stack with
    | nil => exact h.behind
    | cons e rest =>
      have hrest := h.map (fun k => { k with stack := rest }) fun _ _ _ => rfl
      cases e with
      | literal l => exact hrest.behind
      | register id => exact hrest.released id

theorem popped (ho : f.Owned held) : TwinsBehind history f.popped g.popped := by
  obtain ⟨later, hp, ht⟩ := h.dropped
  refine ⟨later, hp, ?_⟩
  refine ht.noteIf (by rw [ht.debug]) fun ρ hρ => ⟨.pop g.top, ?_, rfl⟩
  rw [h.top ho (hρ.mono hp)]
  rfl

theorem peek (ho : f.Owned held) (n : Nat) :
    Twins history (f.peek n).2 (g.peek n).2 ∧
      ∀ ρ, Places history ρ → (f.peek n).1 = (g.peek n).1.rename ρ := by
  unfold Frame.peek
  rw [h.depth, h.floor]
  split
  · exact ⟨h.warn _, fun _ _ => rfl⟩
  · rw [← h.stack]
    cases hs : f.stack[n]? with
    | none => exact ⟨h, fun _ _ => rfl⟩
    | some e => exact ⟨h, fun ρ hρ => h.operand ho (List.mem_of_getElem? hs) hρ⟩

theorem pushLiteral (l : Literal) : Twins history (f.pushLiteral l) (g.pushLiteral l) := by
  have hdebug : f.debug.stack = g.debug.stack := by rw [h.debug]
  have hn : Twins history (f.noteIf f.debug.stack s!"push {l.text}")
      (g.noteIf g.debug.stack s!"push {l.text}") :=
    h.noteIf hdebug fun ρ _ => ⟨.push (.literal l), rfl, rfl⟩
  exact hn.map (fun k => { k with stack := .literal l :: k.stack }) fun _ _ _ => rfl

theorem pushRegister (ha : f.registers.get? id = some a) :
    TwinsBehind history (f.pushRegister id) (g.pushRegister id) := by
  have hs := h.map (fun k => { k with stack := .register id :: k.stack }) fun _ _ _ => rfl
  rw [pushRegister_undergo, pushRegister_undergo]
  refine .of_append ((hs.noteIf (by rw [h.debug]) fun ρ hρ => ?_).undergo _)
  refine ⟨.push (.slot _), ?_, rfl⟩
  rw [h.slotOf ha hρ]
  rfl

/-- Registers in hand go to the stack. -/
theorem pushAll {ids : List RegisterId} (ho : f.Owned (ids ++ held)) :
    TwinsBehind history (ids.foldl Frame.pushRegister f) (ids.foldl Frame.pushRegister g) := by
  induction ids generalizing history f g with
  | nil => exact h.behind
  | cons id rest ih =>
    obtain ⟨a, ha, -⟩ := ho.held_live
    exact (h.pushRegister ha).andThen fun _ ht => ih ht ho.pushHeld

theorem pushLiterals (literals : List Literal) :
    Twins history (literals.foldl Frame.pushLiteral f) (literals.foldl Frame.pushLiteral g) := by
  induction literals generalizing f g with
  | nil => exact h
  | cons l rest ih => exact ih (h.pushLiteral l)

theorem detachAliases (ha : f.registers.get? id = some a) :
    ∃ later, history <+: later ∧ Twins later (f.detachAliases id).2 (g.detachAliases id).2 ∧
      ∀ ρ, Places later ρ →
        (f.detachAliases id).1 = (g.detachAliases id).1.map (Stmt.rename ρ) := by
  have hdetach : g.detachment id = f.detachment id := by
    rw [detachment, detachment, h.get? ha, ha, h.size]
    rfl
  have ht := h.undergo (f.detachment id)
  rw [detachAliases_undergo, detachAliases_undergo, hdetach, ← h.size, h.get? ha, ha]
  simp only [Option.map_some, Option.getD_some]
  split
  · exact ⟨history, List.prefix_refl _, h, fun _ _ => rfl⟩
  · refine ⟨_, List.prefix_append _ (f.detachment id), ?_, fun ρ hρ => ?_⟩
    · exact (h.map (·.redirected id f.registers.arena.size) fun _ _ _ => rfl).undergo _
    · have hgot {j : RegisterId} {b : Register}
          (hb : (f.undergo [.create none none none]).registers.get? j = some b) :
          ∃ c, (f.undergo (f.detachment id)).registers.get? j = some c := by
        obtain ⟨c, hc, -⟩ := get?_after hb (.refer id 0)
        obtain ⟨d, hd, -⟩ := get?_after hc (.refer f.registers.arena.size a.stackRefs)
        refine ⟨d, ?_⟩
        rw [detachment, ha]
        exact hd
      obtain ⟨b, hb⟩ := hgot (get?_created f none none none)
      obtain ⟨c, hc⟩ := hgot (get?_create_of_some ha none none none)
      simp only [Option.map_some, Stmt.rename]
      rw [ht.slotOf hb hρ, ht.slotOf hc hρ]
      rfl

/-! ## Blocks -/

theorem openBlock (name : BlockName) (result : Option ValueType) :
    (f.openBlock name result).1 = (g.openBlock name result).1 ∧
      TwinsBehind history (f.openBlock name result).2 (g.openBlock name result).2 := by
  have hpush {later : List Event} {f' g' : Frame} (ht : Twins later f' g')
      (register : Option RegisterId) :
      (Block.mk name f'.depth result register false = .mk name g'.depth result register false) ∧
        Twins later { f' with blocks := .mk name f'.depth result register false :: f'.blocks }
          { g' with blocks := .mk name g'.depth result register false :: g'.blocks } :=
    ⟨by rw [ht.depth],
      ht.map (fun k => { k with blocks := .mk name k.depth result register false :: k.blocks })
        fun _ _ _ => rfl⟩
  cases result with
  | none =>
    obtain ⟨hb, ht⟩ := hpush h none
    exact ⟨hb, ht.behind⟩
  | some t =>
    obtain ⟨hid, later, hp, ht⟩ := h.temporary
    obtain ⟨hb, ht'⟩ := hpush ht (some f.temporary.1)
    unfold Frame.openBlock
    simp only
    rw [← hid]
    exact ⟨hb, later, hp, ht'⟩

end Twins

end Moonstack.Frame
