import Moonstack.Function.Lifetimes

/-!
# Sizes

A body is oversized if it takes more counter steps than the options allow, or if a branch table
anywhere in it, in dead code too, has more targets than the options allow. The counter steps that
the walk over a body counts are those of `Instr.bodyTicks` (`ticks_ofBody`).
-/

namespace Moonstack

/-- Is the instruction a branch table with more targets than allowed, the default counted? -/
def Op.isWide (limit : Nat) : Op → Bool
  | brTable targets _ => decide (limit < targets.length + 1)
  | _ => false

namespace Instr

mutual

/-- Is there a branch table with more targets than allowed in an instruction? -/
def hasWide (limit : Nat) : Instr → Bool
  | leaf _ op => op.isWide limit
  | block _ _ body | loop _ _ body | ifThen _ _ body => bodyHasWide limit body
  | ifElse _ _ body other => bodyHasWide limit body || bodyHasWide limit other

/-- Is there a branch table with more targets than allowed in a body? -/
def bodyHasWide (limit : Nat) : List Instr → Bool
  | [] => false
  | i :: rest => hasWide limit i || bodyHasWide limit rest

end

end Instr

/-- Is a body too long, or a branch table in it too wide? -/
def Options.oversized (options : Options) (code : List Instr) : Bool :=
  decide (options.functionLimit < Instr.bodyTicks code) ||
    Instr.bodyHasWide options.branchTableLimit code

namespace Survey

theorem clock_extend (s : Survey) (index depth : Nat) : (s.extend index depth).clock = s.clock := by
  unfold extend
  split <;> rfl

theorem clock_read (s : Survey) (index : Nat) : (s.read index).clock = s.clock := by
  unfold read
  split
  · simp only
    split
    · exact clock_extend _ _ _
    · exact clock_extend _ _ _
  · rfl

theorem clock_write (s : Survey) (index : Nat) : (s.write index).clock = s.clock := by
  unfold write
  split
  · simp only
    split <;> rfl
  · rfl

theorem clock_alternative (s : Survey) : s.alternative.clock = s.clock + 1 := by
  unfold alternative
  split <;> rfl

theorem clock_exit (s : Survey) : s.exit.clock = s.clock + 1 := by
  unfold exit
  simp only
  split <;> rfl

mutual

theorem clock_instr (s : Survey) : (i : Instr) → (s.instr i).clock = s.clock + i.ticks
  | .leaf _ op => by
    have hadvance : s.advance.clock = s.clock + 1 := rfl
    unfold instr
    split
    all_goals rename_i h; cases h
    · rw [clock_read, hadvance, Instr.ticks]
    · rw [clock_write, hadvance, Instr.ticks]
    · rw [clock_write, hadvance, Instr.ticks]
    · exact hadvance
  | .block _ _ inner | .ifThen _ _ inner | .loop _ _ inner => by
    rw [instr, clock_exit, clock_body, Instr.ticks]
    simp only [enter, advance]
    omega
  | .ifElse _ _ inner other => by
    rw [instr, clock_exit, clock_body, clock_alternative, clock_body, Instr.ticks]
    simp only [enter, advance]
    omega

theorem clock_body (s : Survey) : (code : List Instr) →
    (s.body code).clock = s.clock + Instr.bodyTicks code
  | [] => rfl
  | i :: rest => by
    rw [body, clock_body, clock_instr, Instr.bodyTicks, Nat.add_assoc]

end

end Survey

/-- The walk over a body finds the number of its counter steps. -/
theorem ticks_ofBody (code : List Instr) (localCount paramCount : Nat) :
    (Lifetimes.ofBody code localCount paramCount).ticks = Instr.bodyTicks code :=
  (Survey.clock_body _ code).trans (Nat.zero_add _)

end Moonstack
