import Moonstack.Proofs.Frame.Later
import Moonstack.Proofs.Lowering.Tidy

/-!
# Proper frames

The texts that a frame passes on to the code: the literals on its operand stack, and the debug
comments that wait to be written. In a proper frame the literals are constants and `nil`, and the
comments take one line each. Every operation on frames keeps this, and gives proper operands.
-/

namespace Moonstack

theorem oneLine_toString (n : Nat) : OneLine (toString n) := (firm_toString n).neutral.oneLine

/-- An entry that code puts on the operand stack. -/
def Entry.Proper : Entry → Prop
  | literal l => l.Proper
  | register _ => True

namespace Frame

/-- The literals on the stack are proper, and the comments to come are lines. -/
structure Proper (f : Frame) : Prop where
  stack : ∀ e ∈ f.stack, e.Proper
  notes : ∀ t ∈ f.notes, OneLine t

theorem oneLine_nameOf (f : Frame) (id : RegisterId) : OneLine (f.nameOf id) :=
  (firm_slotName _).neutral.oneLine

theorem oneLine_freeNote (f : Frame) (id : RegisterId) (r : Register) :
    OneLine (f.freeNote id r) := by
  have hfree : OneLine ("free " ++ f.nameOf id) :=
    (OneLine.ofList (by decide)).append (f.oneLine_nameOf id)
  have hlast : OneLine (r.lastRef.elim "end" toString) := by
    cases r.lastRef with
    | none => exact .ofList (by decide)
    | some n => exact oneLine_toString n
  unfold freeNote
  split
  · exact ((((((hfree.append (t := " (local ") (.ofList (by decide))).append
      (oneLine_toString _)).append (t := ", live ") (.ofList (by decide))).append
      (oneLine_toString _)).append (t := "..") (.ofList (by decide))).append hlast).append
      (t := ")") (.ofList (by decide))
  · exact hfree

namespace Proper

variable {f g : Frame}

variable (h : f.Proper)
include h

theorem congr (hs : g.stack = f.stack) (hn : g.notes = f.notes) : g.Proper where
  stack := hs ▸ h.stack
  notes := hn ▸ h.notes

theorem noteIf (wanted : Bool) {text : String} (ht : OneLine text) :
    (f.noteIf wanted text).Proper := by
  unfold Frame.noteIf
  split
  · refine ⟨h.stack, fun t hmem => ?_⟩
    obtain hmem | rfl := Array.mem_push.1 hmem
    · exact h.notes t hmem
    · exact ht
  · exact h

theorem temporary : f.temporary.2.Proper := by
  have hg : { f with registers := f.registers.createTemporary.2 }.Proper := h.congr rfl rfl
  exact hg.noteIf _ ((.ofList (by decide) : OneLine "alloc ").append (oneLine_nameOf _ _))

theorem localRegister (index : Nat) : (f.localRegister index).2.Proper := by
  unfold Frame.localRegister
  split
  · exact h
  · let made := f.registers.createNamed index f.clock (f.lifetimes.lastRef index)
    have hg : { f with
        registers := made.2
        locals := f.locals.modify index fun _ => some made.1 }.Proper := h.congr rfl rfl
    refine hg.noteIf _ ?_
    exact (((.ofList (by decide) : OneLine "bind local ").append (oneLine_toString _)).append
      (t := " to ") (.ofList (by decide))).append (oneLine_nameOf _ _)

theorem unbind (index : Option Nat) (id : RegisterId) : (f.unbind index id).Proper := by
  cases index with
  | none => exact h
  | some index => exact h.congr rfl rfl

theorem freed (id : RegisterId) : (f.freed id).Proper :=
  freed_cases h (fun _ _ _ _ => h.congr rfl rfl) fun _ _ _ =>
    ((h.unbind _ id).noteIf _ (oneLine_freeNote _ _ _)).congr rfl rfl

theorem freedAll (ids : List RegisterId) : (f.freedAll ids).Proper :=
  List.foldlRecOn ids _ h fun _ hg id _ => hg.freed id

theorem drained : f.drained.Proper :=
  freedAll (f := { f with pending := [] }) (h.congr rfl rfl) _

theorem accessed (index : Nat) : (f.accessed index).Proper :=
  accessed_cases h fun _ => h.freed _

theorem push {e : Entry} (he : e.Proper) (hs : g.stack = e :: f.stack) (hn : g.notes = f.notes) :
    g.Proper where
  stack := by
    rw [hs]
    exact List.forall_mem_cons.2 ⟨he, h.stack⟩
  notes := hn ▸ h.notes

theorem pushLiteral {l : Literal} (hl : l.Proper) : (f.pushLiteral l).Proper := by
  have hnote : (f.noteIf f.debug.stack s!"push {l.text}").Proper :=
    h.noteIf _ ((.ofList (by decide) : OneLine "push ").append
      (Literal.firm_text hl).neutral.oneLine)
  exact hnote.push (e := .literal l) hl rfl rfl

theorem pushRegister (id : RegisterId) : (f.pushRegister id).Proper := by
  have hnote : (f.noteIf f.debug.stack s!"push {f.nameOf id}").Proper :=
    h.noteIf _ ((.ofList (by decide) : OneLine "push ").append (oneLine_nameOf _ _))
  exact hnote.push (e := .register id) trivial rfl rfl

omit h in
theorem operand (f : Frame) {e : Entry} (he : e.Proper) : (f.operand e).Proper := by
  cases e with
  | literal l => exact he
  | register id => trivial

theorem top : f.top.Proper := by
  unfold Frame.top
  split
  · trivial
  · split
    · trivial
    · rename_i e rest hs
      exact operand f (h.stack e (by simp [hs]))

theorem tail {e : Entry} {rest : List Entry} (hs : f.stack = e :: rest) :
    { f with stack := rest }.Proper where
  stack := fun d hd => h.stack d (by simp [hs, hd])
  notes := h.notes

theorem released (id : RegisterId) : (f.released id).Proper := by
  have hu : (f.unreferenced id).Proper := h.congr rfl rfl
  exact released_cases hu (hu.freed id)

theorem popped : f.popped.Proper := by
  have hd : f.dropped.Proper :=
    dropped_cases h (fun _ => h.congr rfl rfl) h.tail fun hs => (h.tail hs).released _
  exact hd.noteIf _ ((.ofList (by decide) : OneLine "pop ").append
    (Operand.neutral_text h.top).oneLine)

theorem peek (n : Nat) : (f.peek n).1.Proper ∧ (f.peek n).2.Proper := by
  unfold Frame.peek
  split
  · exact ⟨trivial, h.congr rfl rfl⟩
  · split
    · exact ⟨trivial, h⟩
    · rename_i e hs
      exact ⟨operand f (h.stack e (List.mem_of_getElem? hs)), h⟩

theorem detachAliases (id : RegisterId) : (f.detachAliases id).2.Proper := by
  unfold Frame.detachAliases
  simp only
  split
  · exact h
  · refine ⟨fun e he => ?_, h.notes⟩
    obtain ⟨d, hd, rfl⟩ := List.mem_map.1 he
    split
    · trivial
    · exact h.stack d hd

theorem openBlock (name : BlockName) (result : Option ValueType) :
    (f.openBlock name result).2.Proper := by
  cases result with
  | none => exact h.congr rfl rfl
  | some t => exact h.temporary.congr rfl rfl

end Proper

end Frame

end Moonstack
