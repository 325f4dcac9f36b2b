import Moonstack.Function.Control
import Moonstack.Proofs.Frame.Total

/-!
# What an emission writes

A computation that writes code looks at the frame only: not at the lines before it, and not at the
indentation. `Emit.Writes x f a g code` says what it does from the frame `f`: it gives `a`, leaves
the frame `g` and adds the lines `code`. Such facts compose along `bind` (`Writes.bind`), and there
is one for each small step. `Emit.Fails x f c` is the other case.
-/

namespace Moonstack

/-- The lines written so far, without their indentation. -/
def Emission.code (e : Emission) : List Line := e.lines.toList.map Placed.line

namespace Emit

variable {α β : Type}

/-- From the frame `f`, the computation gives `a`, leaves the frame `g` and adds `code`. -/
def Writes (x : Emit α) (f : Frame) (a : α) (g : Frame) (code : List Line) : Prop :=
  ∀ e : Emission, e.frame = f → ∃ e', x e = .ok a e' ∧ e'.frame = g ∧ e'.code = e.code ++ code

def Fails (x : Emit α) (f : Frame) (c : Cause) : Prop :=
  ∀ e : Emission, e.frame = f → ∃ e', x e = .error (.of c) e'

theorem bind_ok {x : Emit α} {k : α → Emit β} {e e' : Emission} {a : α} (h : x e = .ok a e') :
    (x >>= k) e = k a e' := by
  change EStateM.bind x k e = _
  simp only [EStateM.bind, h]

theorem ok_of_bind {x : Emit α} {k : α → Emit β} {e e' : Emission} {b : β}
    (h : (x >>= k) e = .ok b e') : ∃ a e₁, x e = .ok a e₁ ∧ k a e₁ = .ok b e' := by
  cases hx : x e with
  | ok a e₁ => exact ⟨a, e₁, rfl, (bind_ok hx).symm.trans h⟩
  | error failure e₁ =>
    change EStateM.bind x k e = _ at h
    simp only [EStateM.bind, hx] at h
    cases h

namespace Writes

variable {x : Emit α} {k : α → Emit β} {f g h : Frame} {a : α} {b : β} {code more : List Line}

/-- What is written from a frame is one thing only. -/
theorem unique (hx : Writes x f a g code) {a' : α} {g' : Frame} {code' : List Line}
    (hx' : Writes x f a' g' code') : a = a' ∧ g = g' ∧ code = code' := by
  obtain ⟨e₁, h₁, hg₁, hc₁⟩ := hx { frame := f } rfl
  obtain ⟨e₂, h₂, hg₂, hc₂⟩ := hx' { frame := f } rfl
  rw [h₁] at h₂
  cases h₂
  exact ⟨rfl, hg₁.symm.trans hg₂, List.append_cancel_left (hc₁.symm.trans hc₂)⟩

theorem bind (hx : Writes x f a g code) (hk : Writes (k a) g b h more) :
    Writes (x >>= k) f b h (code ++ more) := by
  intro e he
  obtain ⟨e₁, h₁, hg₁, hc₁⟩ := hx e he
  obtain ⟨e₂, h₂, hg₂, hc₂⟩ := hk e₁ hg₁
  exact ⟨e₂, (bind_ok h₁).trans h₂, hg₂, by rw [hc₂, hc₁, List.append_assoc]⟩

/-- A step that writes nothing. -/
theorem silent (hx : Writes x f a g []) (hk : Writes (k a) g b h more) :
    Writes (x >>= k) f b h more :=
  hx.bind hk

theorem pure (f : Frame) (a : α) : Writes (Pure.pure a : Emit α) f a f [] :=
  fun e he => ⟨e, rfl, he, (List.append_nil _).symm⟩

end Writes

namespace Fails

variable {x : Emit α} {k : α → Emit β} {f g : Frame} {a : α} {c : Cause} {code : List Line}

theorem bind (hx : Fails x f c) : Fails (x >>= k) f c := by
  intro e he
  obtain ⟨e₁, h₁⟩ := hx e he
  refine ⟨e₁, ?_⟩
  change EStateM.bind x k e = _
  simp only [EStateM.bind, h₁]

theorem after (hx : Writes x f a g code) (hk : Fails (k a) g c) : Fails (x >>= k) f c := by
  intro e he
  obtain ⟨e₁, h₁, hg₁, -⟩ := hx e he
  obtain ⟨e₂, h₂⟩ := hk e₁ hg₁
  exact ⟨e₂, (bind_ok h₁).trans h₂⟩

theorem throw (f : Frame) (c : Cause) : Fails (MonadExcept.throw (.of c) : Emit α) f c :=
  fun e _ => ⟨e, rfl⟩

end Fails

theorem writes_change (g : Frame → Frame) (f : Frame) : Writes (change g) f () (g f) [] := by
  rintro e rfl
  exact ⟨_, rfl, rfl, (List.append_nil _).symm⟩

theorem writes_step (g : Frame → α × Frame) (f : Frame) : Writes (step g) f (g f).1 (g f).2 [] := by
  rintro e rfl
  exact ⟨_, rfl, rfl, (List.append_nil _).symm⟩

theorem writes_attempt {g : Frame → Except RegisterError (α × Frame)} {f f' : Frame} {a : α}
    (h : g f = .ok (a, f')) : Writes (attempt g) f a f' [] := by
  rintro e rfl
  refine ⟨{ e with frame := f' }, ?_, rfl, (List.append_nil _).symm⟩
  unfold attempt
  rw [bind_ok (show (get : Emit Emission) e = .ok e e from rfl), h]
  rfl

theorem writes_attempt' {g : Frame → Except RegisterError Frame} {f f' : Frame}
    (h : g f = .ok f') : Writes (attempt' g) f () f' [] :=
  writes_attempt (by rw [h]; rfl)

theorem writes_frame (f : Frame) : Writes frame f f f [] := by
  rintro e rfl
  exact ⟨e, rfl, rfl, (List.append_nil _).symm⟩

theorem writes_line (l : Line) (f : Frame) : Writes (line l) f () f [l] := by
  rintro e rfl
  exact ⟨_, rfl, rfl, by simp [Emission.code]⟩

theorem writes_stmt (s : Stmt) (f : Frame) : Writes (stmt s) f () f [.stmt s] :=
  writes_line _ _

theorem writes_deeper (f : Frame) : Writes deeper f () f [] := by
  rintro e rfl
  exact ⟨_, rfl, rfl, (List.append_nil _).symm⟩

theorem writes_shallower (f : Frame) : Writes shallower f () f [] := by
  rintro e rfl
  exact ⟨_, rfl, rfl, (List.append_nil _).symm⟩

/-- The comment that a warning is written as. -/
def warned (w : Warning) : Line := .comment s!"WARNING: {w.message}"

theorem writes_warn (w : Warning) (f : Frame) :
    Writes (warn w) f () (f.warn w.message) [warned w] :=
  (writes_change _ f).silent (writes_line _ _)

theorem writes_pop (f : Frame) : Writes pop f f.top f.popped [] :=
  writes_attempt f.pop_eq

theorem writes_popMany (f : Frame) (n : Nat) :
    Writes (popMany n) f (f.tops n) (f.poppedMany n) [] := by
  induction n generalizing f with
  | zero => exact .pure f _
  | succ n ih => exact (writes_pop f).silent ((ih f.popped).silent (.pure _ _))

theorem writes_temporary (f : Frame) : Writes temporary f f.temporary.1 f.temporary.2 [] :=
  writes_step _ f

theorem writes_slotOf (id : RegisterId) (f : Frame) :
    Writes (slotOf id) f (f.registers.slotOf id) f [] :=
  (writes_frame f).silent (.pure _ _)

theorem writes_assign (id : RegisterId) (value : Expr) (f : Frame) :
    Writes (assign id value) f () f
      [.stmt (.assign [.slot (f.registers.slotOf id)] value)] :=
  (writes_slotOf id f).silent (writes_stmt _ _)

def copied (slot : Nat) (value : Operand) : List Line :=
  if value ≠ .slot slot then [.stmt (.assign [.slot slot] (.operand value))] else []

theorem writes_copy (id : RegisterId) (value : Operand) (f : Frame) :
    Writes (copy id value) f () f (copied (f.registers.slotOf id) value) := by
  refine (writes_slotOf id f).silent ?_
  unfold copied
  split
  · exact writes_stmt _ _
  · exact .pure _ _

theorem writes_forM {x : α → Emit Unit} {line : α → Line} {f : Frame}
    (h : ∀ a, Writes (x a) f () f [line a]) (as : List α) :
    Writes (as.forM x) f () f (as.map line) := by
  induction as with
  | nil => exact .pure _ _
  | cons a rest ih => exact (h a).bind ih

theorem writes_lines (lines : List Line) (f : Frame) : Writes (lines.forM line) f () f lines := by
  have hw := writes_forM (fun l => writes_line l f) lines
  rwa [List.map_id'] at hw

theorem forM_toList (as : Array α) (x : α → Emit Unit) : as.forM x = as.toList.forM x := by
  rw [Array.forM_eq_forM]
  exact List.forM_toArray as.toList x

theorem writes_peekMany (f : Frame) (n : Nat) :
    Writes (peekMany n) f (f.peeks n) (f.peekedMany n) [] := by
  induction n generalizing f with
  | zero => exact .pure f _
  | succ n ih => exact (writes_step _ f).silent ((ih _).silent (.pure _ _))

end Emit

end Moonstack
