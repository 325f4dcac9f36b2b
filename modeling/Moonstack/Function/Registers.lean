import Moonstack.Options

/-!
# Registers

Every value that the generated code keeps in a Lua local lives in a register. A register is bound to
a local of the function or is a temporary, and it holds a slot, the number of a Lua local. Registers
are numbered by creation, and numbers are never used again.
-/

namespace Moonstack

/-- The number of a register. -/
abbrev RegisterId := Nat

/-- A register: its slot, and what tells when it can be freed. -/
structure Register where
  /-- the local it is bound to; none for a temporary -/
  boundTo : Option Nat
  slot : Nat
  firstRef : Option Nat
  /-- counter value after which the value is not needed, for a bound register -/
  lastRef : Option Nat
  /-- how many entries of the operand stack refer to it -/
  stackRefs : Nat := 0
  live : Bool := true

/-- All registers of a function, and the slots that are free. -/
structure Registers where
  strategy : Strategy
  arena : Array Register := #[]
  freeSlots : List Nat := []
  slotCount : Nat := 0
  liveCount : Nat := 0

/-! ## Lookups -/

namespace Registers

/-- The register of a number. -/
def get? (r : Registers) (id : RegisterId) : Option Register := r.arena[id]?

/-- The slot of a register. -/
def slotOf (r : Registers) (id : RegisterId) : Nat := ((r.get? id).map Register.slot).getD 0

/-- Changes a register. -/
def modify (r : Registers) (id : RegisterId) (f : Register → Register) : Registers :=
  { r with arena := r.arena.modify id f }

/-! ## New registers -/

/-- Takes a slot: the lowest free one if slots are pooled, else a new one. -/
def takeSlot (r : Registers) : Nat × Registers :=
  match r.strategy, r.freeSlots with
  | .pooled, slot :: rest => (slot, { r with freeSlots := rest })
  | _, _ => (r.slotCount, { r with slotCount := r.slotCount + 1 })

/-- Makes a live register. -/
def create (r : Registers) (boundTo firstRef lastRef : Option Nat) : RegisterId × Registers :=
  let (slot, r) := r.takeSlot
  (r.arena.size,
    { r with
      arena := r.arena.push { boundTo, slot, firstRef, lastRef }
      liveCount := r.liveCount + 1 })

/-- Makes a register for a local that is first referred to at `firstRef`. -/
def createNamed (r : Registers) (index firstRef : Nat) (lastRef : Option Nat) :
    RegisterId × Registers :=
  r.create (some index) (some firstRef) lastRef

/-- Makes a register for a value on the stack. -/
def createTemporary (r : Registers) : RegisterId × Registers := r.create none none none

/-! ## The end of a register -/

/-- Ends the life of a register; a pooled slot becomes free. The registers are given back whether or
not this succeeds. -/
def retire (r : Registers) (id : RegisterId) : EStateM.Result RegisterError Registers Unit :=
  match r.get? id with
  | none => .error (.unknown id) r
  | some register =>
    if !register.live then .error (.freedTwice register.slot) r
    else
      let r := r.modify id fun register => { register with live := false }
      .ok () { r with
        liveCount := r.liveCount - 1
        freeSlots :=
          if r.strategy = .pooled then insertOnce register.slot r.freeSlots else r.freeSlots }

/-- Frees a register, for those who give up if this fails. -/
def free (r : Registers) (id : RegisterId) : Except RegisterError Registers :=
  match r.retire id with
  | .ok _ r => .ok r
  | .error e _ => .error e

end Registers

end Moonstack
