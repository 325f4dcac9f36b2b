import Moonstack.Proofs.Frame.Later

/-!
# Frames without debug comments

The debug options of a frame say which comments are written, and nothing else depends on them. What
is left of a frame without debug options and debug comments is its `mute`, and every operation on
frames does the same on both (`Frame.Deaf`, and `Frame.DeafStep` for those that give a value).
-/

namespace Moonstack

namespace Frame

/-- The frame without debug options and without debug comments. -/
def mute (f : Frame) : Frame := { f with debug := {}, notes := #[] }

/-- The change does the same whatever the debug options are. -/
def Deaf (u : Frame → Frame) : Prop := ∀ f : Frame, u f.mute = (u f).mute

/-- The step does the same and gives the same value whatever the debug options are. -/
def DeafStep {α : Type} (g : Frame → α × Frame) : Prop :=
  ∀ f : Frame, g f.mute = ((g f).1, (g f).2.mute)

@[simp]
theorem mute_noteIf (f : Frame) (wanted : Bool) (text : String) :
    (f.noteIf wanted text).mute = f.mute := by
  unfold noteIf
  split <;> rfl

namespace Deaf

theorem comp {u v : Frame → Frame} (hu : Deaf u) (hv : Deaf v) : Deaf fun f => u (v f) := by
  intro f
  change u (v f.mute) = _
  rw [hv f, hu (v f)]

theorem foldl {ι : Type} {u : Frame → ι → Frame} (hu : ∀ i, Deaf fun f => u f i)
    (items : List ι) : Deaf fun f => items.foldl u f := by
  induction items with
  | nil => exact fun f => rfl
  | cons i rest ih => exact ih.comp (hu i)

theorem surrender (id : RegisterId) (r : Register) : Deaf fun f => f.surrender id r := by
  intro f
  simp only [Frame.surrender, noteIf_eq, unbind_eq]
  rfl

theorem freed (id : RegisterId) : Deaf fun f => f.freed id := by
  intro f
  have hget : f.mute.registers.get? id = f.registers.get? id := rfl
  simp only [Frame.freed, hget]
  cases f.registers.get? id with
  | none => rfl
  | some r =>
    simp only [apply_ite Frame.mute, ← surrender id r f]
    rfl

theorem freedAll (ids : List RegisterId) : Deaf fun f => f.freedAll ids :=
  foldl (u := Frame.freed) freed ids

theorem drained : Deaf Frame.drained := fun f => freedAll f.pending { f with pending := [] }

theorem accessed (index : Nat) : Deaf fun f => f.accessed index := by
  intro f
  have hlocals : f.mute.locals[index]? = f.locals[index]? := rfl
  simp only [Frame.accessed, hlocals]
  cases (f.locals[index]?).join with
  | none => rfl
  | some id => exact freed id f

theorem pushLiteral (l : Literal) : Deaf fun f => f.pushLiteral l := by
  intro f
  simp only [Frame.pushLiteral, noteIf_eq]
  rfl

theorem pushRegister (id : RegisterId) : Deaf fun f => f.pushRegister id := by
  intro f
  simp only [Frame.pushRegister, noteIf_eq]
  rfl

theorem released (id : RegisterId) : Deaf fun f => f.released id := by
  intro f
  simp only [Frame.released, apply_ite Frame.mute, ← freed id (f.unreferenced id)]
  rfl

theorem dropped : Deaf Frame.dropped := by
  intro f
  have hstack : f.mute.stack = f.stack := rfl
  simp only [Frame.dropped, apply_ite Frame.mute, hstack]
  cases f.stack with
  | nil => rfl
  | cons e rest =>
    cases e with
    | literal l => rfl
    | register id =>
      simp only [← released id { f with stack := rest }]
      rfl

theorem popped : Deaf Frame.popped := by
  intro f
  simp only [Frame.popped, mute_noteIf, ← dropped f]
  rw [dropped f]
  rfl

end Deaf

namespace DeafStep

theorem temporary : DeafStep Frame.temporary := by
  intro f
  refine Prod.ext rfl ?_
  simp only [Frame.temporary, mute_noteIf]
  rfl

theorem localRegister (index : Nat) : DeafStep fun f => f.localRegister index := by
  intro f
  have hlocals : f.mute.locals[index]? = f.locals[index]? := rfl
  simp only [Frame.localRegister, hlocals]
  cases (f.locals[index]?).join with
  | some id => rfl
  | none =>
    refine Prod.ext rfl ?_
    simp only [mute_noteIf]
    rfl

theorem peek (n : Nat) : DeafStep fun f => f.peek n := by
  intro f
  have hstack : f.mute.stack[n]? = f.stack[n]? := rfl
  simp only [Frame.peek, hstack]
  cases f.stack[n]? <;> refine Prod.ext ?_ ?_ <;>
    simp only [apply_ite Prod.fst, apply_ite Prod.snd, apply_ite mute] <;> rfl

theorem detachAliases (id : RegisterId) : DeafStep fun f => f.detachAliases id := by
  intro f
  refine Prod.ext ?_ ?_ <;>
    simp only [Frame.detachAliases, apply_ite Prod.fst, apply_ite Prod.snd, apply_ite mute] <;> rfl

theorem openBlock (name : BlockName) (result : Option ValueType) :
    DeafStep fun f => f.openBlock name result := by
  intro f
  cases result with
  | none => rfl
  | some type =>
    simp only [Frame.openBlock, temporary f]
    rfl

end DeafStep

end Frame

end Moonstack
