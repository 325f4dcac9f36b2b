import Moonstack.Proofs.Emission.Arrivals
import Moonstack.Proofs.Simulation.Functions

/-!
# Where bodies start

`Emit.Starts env code e` says that the writing of the body `code`, that of a function or of an
initializer, starts in the state `e`. No register is in hand there, nor in front of any instruction
that the writing comes to, and the stack never ends below the floor (`BodyArrives.poised`).
-/

namespace Moonstack

open Moonstack.Frame Instr

namespace Emit

variable {env : Env} {e e' p : Emission} {f : Frame}

/-- The writing of a body starts in the state `e`. -/
inductive Starts (env : Env) : List Instr → Emission → Prop where
  | function {id : String} {function : Function} {signature : Signature} {params : List String}
      {e : Emission} :
    Emit.params signature.params.length
      { frame := startFrame env id (some signature) function.locals function.body } =
      .ok params e → Starts env function.body e
  | initializer {id : String} {code : List Instr} :
    Starts env code { frame := startFrame env id none [] code }

theorem exists_starts (env : Env) (id : String) (function : Function) (signature : Signature) :
    ∃ e, Starts env function.body e := by
  obtain ⟨e, he, -⟩ :=
    writes_params (function.startFrame env id signature)
      { frame := function.startFrame env id signature } rfl
  exact ⟨e, .function he⟩

end Emit

namespace Frame

theorem stack_zeroed (f : Frame) (indices : List Nat) : (f.zeroed indices).stack = f.stack := by
  induction indices generalizing f with
  | nil => rfl
  | cons index rest ih =>
    exact (ih _).trans ((stack_accessed _ index).trans (stack_localRegister f index))

theorem stack_begun (f : Frame) : f.begun.stack = f.stack := stack_zeroed f.tick _

/-- No register is in hand, and the stack does not end below the floor. -/
structure Poised (f : Frame) : Prop where
  owned : f.Owned []
  floor_le : f.floor ≤ f.depth

namespace Poised

variable {f g : Frame} {n : Nat} {b : Block}

theorem moved (h : f.Poised) (hm : Moved n f g) (ho : g.Owned []) : g.Poised :=
  ⟨ho, hm.floor_le h.floor_le⟩

theorem opening (h : f.Poised) (kind : BlockKind) : (f.opening kind).Poised :=
  h.moved (.opening f kind) (h.owned.opening kind)

theorem begun (h : f.Poised) : f.begun.Poised := h.opening .block

theorem of_within (hg : Within n f b g) (ho : g.Owned []) : g.Poised := by
  refine ⟨ho, ?_⟩
  simp only [floor, hg.blocks]
  exact hg.depth_le

theorem opened (h : f.Poised) (name : BlockName) (result : Option ValueType) :
    (f.openBlock name result).2.Poised :=
  of_within (.opened f name result) (h.owned.openBlock name result)

theorem turned (h : g.Poised) (hg : Within n f b g) : (g.turned b).Poised :=
  of_within hg.turned (hg.owned_turned h.owned)

end Poised

end Frame

namespace Emit

variable {env : Env} {e p : Emission} {i : Instr} {code : List Instr}

theorem guides_poised (env : Env) : Guides env (fun f _ => f.Poised) (fun f _ => f.Poised) where
  head h := h
  tail h _ hk := h.moved hk.moved (hk.owned h.owned)
  inner _ h := (h.opening _).opened _ _
  firstArm h := (h.opening .cond).opened _ _
  secondArm {f g offset result _ _ _} h _ hk := by
    have ho := (h.opening .cond).opened ⟨.cond, offset⟩ result
    exact (ho.moved hk.moved (hk.owned ho.owned)).turned
      ((Within.opened f.begun.popped ⟨.cond, offset⟩ result).moved hk.moved)

theorem owned_initializer (env : Env) (id : String) (code : List Instr) :
    (startFrame env id none [] code).Owned [] := by
  have h := @owned_start id none [] env.options.strategy
  refine { h with forced := fun p hp => (forced_ofBody hp).2, bound := fun hl => ?_ }
  simp [startFrame, start] at hl

theorem Starts.poised (h : Starts env code e) : e.frame.Poised := by
  cases h with
  | @function id function signature params e h =>
    have hstands := stands_entered env id function signature
    have hframe : e.frame = _ := frame_of_ok
      (writes_params (function.startFrame env id signature)) rfl h
    rw [hframe]
    refine ⟨hstands.owned, ?_⟩
    rw [hstands.mirrors.depth]
    exact Nat.le_add_right _ _
  | @initializer id code => exact ⟨owned_initializer env id code, Nat.le_refl _⟩

/-- Ownership and depth in front of an instruction. -/
theorem BodyArrives.poised (ha : BodyArrives env code e i p) (h : Starts env code e) :
    p.frame.Poised :=
  (guides_poised env).walk.body code h.poised ha

end Emit

end Moonstack
