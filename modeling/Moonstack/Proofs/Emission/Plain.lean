import Moonstack.Proofs.Emission.Keeps

/-!
# What plain instructions write

`writes_perform` says what performing a task writes and which frame it leaves. For plain instructions
it becomes their common specification, `writes_plain`. A place to resume at is the subject of
`writes_savePlace`.
-/

namespace Moonstack

variable {held : List RegisterId}

namespace Frame

/-- Makes a number of temporaries. -/
def temporaries (f : Frame) : Nat → List RegisterId × Frame
  | 0 => ([], f)
  | n + 1 => (f.temporary.1 :: (f.temporary.2.temporaries n).1, (f.temporary.2.temporaries n).2)

/-- The frame after the operands of a plain instruction have been taken. -/
def consumed (f : Frame) (p : Plain) : Frame := (f.temporaries p.pushes).2.poppedMany p.pops

def arguments (f : Frame) (p : Plain) : List Operand := (f.temporaries p.pushes).2.tops p.pops

def results (f : Frame) (p : Plain) : List RegisterId := (f.temporaries p.pushes).1

/-- The frame after a plain instruction. -/
def performed (f : Frame) (p : Plain) : Frame :=
  (f.results p).foldl pushRegister (f.consumed p)

def plainCode (f : Frame) (p : Plain) : List Line :=
  p.code (f.arguments p) ((f.results p).map (f.consumed p).registers.slotOf)

/-- The frame after the operand of `setjmp` has been taken. -/
def saving (f : Frame) : Frame := f.temporary.2.popped

/-- The frame with the result of `setjmp` on the stack. -/
def resumed (f : Frame) : Frame := f.saving.pushRegister f.temporary.1

/-- The frame after a place to resume at. -/
def saved (f : Frame) (offset : Nat) : Frame :=
  let warnings := if f.resumed.inLoop then [Warning.resumeInLoop offset] else []
  { f.resumed.warnAll warnings with sites := f.resumed.sites.push ⟨offset, f.resumed.inLoop⟩ }

/-- The code of a place to resume at. -/
def saveCode (f : Frame) (handle : String) (offset : Nat) : List Line :=
  [.stmt (.capture (jumpPlace handle f.temporary.2.top) f.saving.registers.slotCount
      (.resume offset)),
    .label (.resume offset),
    .stmt (.assign [.slot (f.saving.registers.slotOf f.temporary.1)]
      (Emit.resumedValue (.resume offset)))] ++
    (if f.resumed.inLoop then [Emit.warned (.resumeInLoop offset)] else [])

def served (f : Frame) (t : Task) : Frame :=
  t.literals.foldl pushLiteral ((f.results t.toPlain).foldl pushRegister
    ((f.consumed t.toPlain).warnAll t.warnings))

theorem registers_warnAll (f : Frame) (warnings : List Warning) :
    (f.warnAll warnings).registers = f.registers := by
  induction warnings generalizing f with
  | nil => rfl
  | cons w rest ih => exact ih (f.warn w.message)

theorem length_temporaries (f : Frame) (n : Nat) : (f.temporaries n).1.length = n := by
  induction n generalizing f with
  | zero => rfl
  | succ n ih => rw [temporaries, List.length_cons, ih]

theorem Owned.temporaries {f : Frame} (ho : f.Owned held) (n : Nat) :
    (f.temporaries n).2.Owned ((f.temporaries n).1 ++ held) := by
  induction n generalizing f held with
  | zero => exact ho
  | succ n ih => exact (ih ho.temporary).perm List.perm_middle

theorem Moved.temporaries (f : Frame) (n : Nat) : Moved 0 f (f.temporaries n).2 := by
  induction n generalizing f with
  | zero => exact .refl f
  | succ n ih => exact (Moved.temporary f).trans (ih _)

theorem length_tops (f : Frame) (n : Nat) : (f.tops n).length = n := by
  induction n generalizing f with
  | zero => rfl
  | succ n ih => rw [tops, List.length_append, ih, List.length_singleton]

theorem peek_zero (f : Frame) : (f.peek 0).1 = f.top := by
  unfold peek top
  rw [Nat.add_zero]
  split
  · rfl
  · cases f.stack <;> rfl

theorem stack_temporaries (f : Frame) (n : Nat) : (f.temporaries n).2.stack = f.stack := by
  induction n generalizing f with
  | zero => rfl
  | succ n ih =>
    rw [Frame.temporaries, ih, temporary_eq]

end Frame

namespace Emit

open Moonstack.Frame

theorem writes_temporaries (f : Frame) (n : Nat) :
    Writes (temporaries n) f (f.temporaries n).1 (f.temporaries n).2 [] := by
  induction n generalizing f with
  | zero => exact .pure f _
  | succ n ih => exact (writes_temporary f).silent ((ih _).silent (.pure _ _))

/-- **What performing a task writes.** -/
theorem writes_perform (t : Task) (f : Frame) : Writes (perform t) f ()
    ((f.warnAll t.notices).served t)
    (t.notices.map warned ++ (t.warnings.map warned ++ (f.warnAll t.notices).plainCode t.toPlain)) := by
  refine (keeps_warns f [] t.notices).writes.bind ((writes_temporaries _ _).silent
    ((writes_popMany _ _).silent ((keeps_warns _ [] t.warnings).writes.bind ?_)))
  refine (writes_frame _).silent ?_
  rw [registers_warnAll, ← List.append_nil (plainCode _ _)]
  exact (writes_lines _ _).bind (writes_change _ _)

/-- **What a place to resume at writes.** -/
theorem writes_savePlace (handle : String) (offset : Nat) (f : Frame) :
    Writes (savePlace handle offset) f () (f.saved offset) (f.saveCode handle offset) := by
  have hsite : Writes (do
      let inLoop := (← frame).inLoop
      if inLoop then warn (.resumeInLoop offset)
      change fun f => { f with sites := f.sites.push { offset, inLoop } }) f.resumed ()
      (f.saved offset) (if f.resumed.inLoop then [warned (.resumeInLoop offset)] else []) := by
    refine (writes_frame _).silent ?_
    unfold saved
    cases f.resumed.inLoop with
    | true => exact (writes_warn _ _).bind (writes_change _ _)
    | false => exact writes_change (fun f => { f with sites := f.sites.push ⟨offset, false⟩ }) _
  exact (writes_temporary f).silent ((writes_pop _).silent ((writes_frame _).silent
    ((writes_stmt _ _).bind ((writes_line _ _).bind ((writes_assign _ _ _).bind
      ((writes_change _ _).silent hsite))))))

section

variable {f : Frame} {p : Plain} {env : Env}

/-- **What a plain instruction writes.** -/
theorem writes_plain {o : Op} (hp : o.plain env = some p) (offset : Nat) : ∃ g, Quiet f g ∧
    Writes (op env offset o) f () (g.performed p) (g.plainCode p) := by
  by_cases hc : ∃ c, o = .convert c
  · obtain ⟨c, rfl⟩ := hc
    cases hp
    exact ⟨_, .peek f 0, (writes_step _ f).silent (writes_perform _ _)⟩
  · rw [op_eq_perform (Op.task_of_plain hp fun c hc' => hc ⟨c, hc'⟩)]
    exact ⟨f, .refl f, writes_perform p.task f⟩

end

end Emit

end Moonstack
