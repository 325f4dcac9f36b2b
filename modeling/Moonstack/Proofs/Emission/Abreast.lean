import Moonstack.Proofs.Emission.Passes
import Moonstack.Proofs.Frame.Twins

/-!
# Two emissions abreast

The same computation run twice, on a pooled and on a virtual frame. `Emit.Both` is the relation of
two runs: they fail alike, or both give a value. `Emission.Abreast` relates the emissions: the frames
are twins, the indentation is the same, and the lines are the same up to slots, but for records of
all slots, which are written at places to resume at. `Emit.Goes` says that two runs take emissions
that are abreast to such emissions, and `Emit.InStep` says so of the two runs of one computation,
whose value has no slots.

Values that the two runs give differ in slots too. `Registers.Follows` compares them by every
function that places the registers of the history so far.
-/

namespace Moonstack

open Registers Moonstack.Frame

variable {id : RegisterId} {d d' : Emission} {a : Register}

/-- The first value is the second, renamed by any function that places the registers. -/
def Registers.Follows {α : Type} (history : List Event) (ren : (Nat → Nat) → α → α) (a b : α) :
    Prop :=
  ∀ ρ, Places history ρ → a = ren ρ b

theorem Registers.Follows.mono {α : Type} {history later : List Event} {ren : (Nat → Nat) → α → α}
    {a b : α} (h : Follows history ren a b) (hp : history <+: later) : Follows later ren a b :=
  fun ρ hρ => h ρ (hρ.mono hp)

/-- A value without slots. -/
def Registers.kept {α : Type} (_ : Nat → Nat) (a : α) : α := a

theorem Registers.Follows.eq {α : Type} {history : List Event} {a b : α}
    (h : Follows history kept a b) : a = b :=
  h _ (places_slotOf history)

/-- The first line is the second with its slots renamed, or both are records of all slots. -/
inductive Line.Matches (ρ : Nat → Nat) : Line → Line → Prop
  | renamed {s t : Line} (h : Line.Renamed ρ s t) : Matches ρ s t
  | record (place : Expr) (slots slots' : Nat) (target : Label) :
    Matches ρ (.stmt (.capture (place.rename ρ) slots target)) (.stmt (.capture place slots' target))

/-- The emissions are the same up to slots, with the given registers in hand and the given blocks
open. -/
structure Emission.Abreast (history : List Event) (held : List RegisterId) (blocks : List Block)
    (e e' : Emission) : Prop where
  frames : Twins history e.frame e'.frame
  owned : e.frame.Owned held
  blocks : e.frame.blocks = blocks
  indent : e.indent = e'.indent
  lines : ∀ ρ, Places history ρ → List.Forall₂
    (fun p q => p.indent = q.indent ∧ p.line.Matches ρ q.line) e.lines.toList e'.lines.toList

namespace Emission.Abreast

variable {history later : List Event} {held held' : List RegisterId} {blocks : List Block}
  {e e' : Emission} (h : Abreast history held blocks e e')
include h

/-- The emissions after a step of the frame. -/
theorem turned {f f' : Frame} (ht : Twins later f f') (hp : history <+: later) (ho : f.Owned held')
    {blocks' : List Block} (hb : f.blocks = blocks') :
    Abreast later held' blocks' { e with frame := f } { e' with frame := f' } where
  frames := ht
  owned := ho
  blocks := hb
  indent := h.indent
  lines ρ hρ := h.lines ρ (hρ.mono hp)

/-- The emissions after a step of the frame that opens and closes no block. -/
theorem moved {n : Nat} {f f' : Frame} (hm : Moved n e.frame f) (ht : Twins later f f')
    (hp : history <+: later) (ho : f.Owned held') :
    Abreast later held' blocks { e with frame := f } { e' with frame := f' } :=
  h.turned ht hp ho (hm.blocks.trans h.blocks)

/-- The emissions after a line. -/
theorem line {s t : Line} (hst : ∀ ρ, Places history ρ → s.Matches ρ t) :
    Abreast history held blocks { e with lines := e.lines.push ⟨e.indent, s⟩ }
      { e' with lines := e'.lines.push ⟨e'.indent, t⟩ } where
  frames := h.frames
  owned := h.owned
  blocks := h.blocks
  indent := h.indent
  lines ρ hρ := by
    rw [Array.toList_push, Array.toList_push]
    exact List.rel_append (h.lines ρ hρ) (.cons ⟨h.indent, hst ρ hρ⟩ .nil)

/-- The emissions after an assignment to a register. -/
theorem assigned (ha : e.frame.registers.get? id = some a) {v w : Expr}
    (hv : Follows history Expr.rename v w) :
    let s := Line.stmt (.assign [.slot (e.frame.registers.slotOf id)] v)
    let t := Line.stmt (.assign [.slot (e'.frame.registers.slotOf id)] w)
    Abreast history held blocks { e with lines := e.lines.push ⟨e.indent, s⟩ }
      { e' with lines := e'.lines.push ⟨e'.indent, t⟩ } :=
  h.line fun ρ hρ => by
    rw [h.frames.slotOf ha hρ, hv ρ hρ]
    exact .renamed (.code (.stmt (.assign [.slot _] w)))

/-- The order of the registers in hand does not matter. -/
theorem perm (hp : held.Perm held') : Abreast history held' blocks e e' :=
  { h with owned := h.owned.perm hp }

end Emission.Abreast

open Emission

namespace Emit

variable {α β : Type} {tidy : Bool} {history later : List Event} {held : List RegisterId}
  {e e' : Emission}
variable {P Q : α → α → Emission → Emission → Prop} {index : Nat} {x y : Emit α} {k l : α → Emit β}
  {a b : α} {s : Failure}

/-! ## Two runs -/

/-- The runs fail alike, or both give values and leave emissions of which the postcondition
holds. -/
def Both (x y : Emit α) (e e' : Emission) (Q : α → α → Emission → Emission → Prop) : Prop :=
  match x e, y e' with
  | .ok a d, .ok b d' => Q a b d d'
  | .error s _, .error t _ => s = t
  | _, _ => False

theorem Both.of_ok (hx : x e = .ok a d) (hy : y e' = .ok b d') (hQ : Q a b d d') :
    Both x y e e' Q := by
  unfold Both
  rw [hx, hy]
  exact hQ

theorem Both.of_error (hx : x e = .error s d) (hy : y e' = .error s d') : Both x y e e' Q := by
  unfold Both
  rw [hx, hy]

theorem bind_error (h : x e = .error s d) : (x >>= k) e = .error s d := by
  change EStateM.bind x k e = _
  simp only [EStateM.bind, h]

theorem Both.mono (h : Both x y e e' P) (hPQ : ∀ a b d d', P a b d d' → Q a b d d') :
    Both x y e e' Q := by
  unfold Both at h ⊢
  cases hx : x e <;> cases hy : y e' <;> rw [hx, hy] at h
  · exact hPQ _ _ _ _ h
  · exact h
  · exact h
  · exact h

theorem Both.bind {Q : β → β → Emission → Emission → Prop} (h : Both x y e e' P)
    (hk : ∀ a b d d', P a b d d' → Both (k a) (l b) d d' Q) : Both (x >>= k) (y >>= l) e e' Q := by
  unfold Both at h
  cases hx : x e <;> cases hy : y e' <;> rw [hx, hy] at h
  · unfold Both
    rw [bind_ok hx, bind_ok hy]
    exact hk _ _ _ _ h
  · exact h.elim
  · exact h.elim
  · exact .of_error (bind_error hx) (bind_error (h ▸ hy))

theorem Both.of_run {Q : β → β → Emission → Emission → Prop} (hx : x e = .ok a d)
    (hy : y e' = .ok b d') (hk : Both (k a) (l b) d d' Q) : Both (x >>= k) (y >>= l) e e' Q := by
  unfold Both
  rw [bind_ok hx, bind_ok hy]
  exact hk

/-- The runs fail alike, or leave emissions that are abreast, with the given blocks open. -/
def Goes (history : List Event) (blocks : List Block) (held : α → List RegisterId)
    (ren : (Nat → Nat) → α → α) (x y : Emit α) (e e' : Emission) : Prop :=
  Both x y e e' fun a b d d' => ∃ later, history <+: later ∧ Abreast later (held a) blocks d d' ∧
    Follows later ren a b

variable {blocks blocks' : List Block} {held₁ : α → List RegisterId}
  {held₂ : β → List RegisterId} {ren : (Nat → Nat) → α → α} {ren' : (Nat → Nat) → β → β}

namespace Goes

theorem bind (hx : Goes history blocks held₁ ren x y e e')
    (hk : ∀ {a b later d d'}, history <+: later → Abreast later (held₁ a) blocks d d' →
      Follows later ren a b → Goes later blocks' held₂ ren' (k a) (l b) d d') :
    Goes history blocks' held₂ ren' (x >>= k) (y >>= l) e e' := by
  refine Both.bind hx fun a b d d' ⟨later, hp, hd, hab⟩ => ?_
  refine (hk hp hd hab).mono fun _ _ _ _ ⟨last, hp', hlast⟩ => ?_
  exact ⟨last, hp.trans hp', hlast⟩

/-- A first step whose outcome is known. -/
theorem of_run (hx : x e = .ok a d) (hy : y e' = .ok b d') (hp : history <+: later)
    (hk : Goes later blocks held₂ ren' (k a) (l b) d d') :
    Goes history blocks held₂ ren' (x >>= k) (y >>= l) e e' := by
  refine Both.of_run hx hy (hk.mono fun _ _ _ _ ⟨last, hp', hlast⟩ => ?_)
  exact ⟨last, hp.trans hp', hlast⟩

theorem pure (h : Abreast history (held₁ a) blocks e e') (hab : Follows history ren a b) :
    Goes history blocks held₁ ren (Pure.pure a) (Pure.pure b) e e' :=
  ⟨history, List.prefix_refl _, h, hab⟩

/-- Runs that fail at once. -/
theorem throw (s : Failure) :
    Goes history blocks held₁ ren (MonadExcept.throw s) (MonadExcept.throw s) e e' :=
  rfl

end Goes

/-- Wherever the emissions are abreast, the two runs of the computation keep them so, with the same
blocks open and the same registers in hand, and give one value. -/
def InStep (x : Emit α) : Prop :=
  ∀ ⦃history held blocks e e'⦄, Abreast history held blocks e e' →
    Goes history blocks (fun _ => held) kept x x e e'

/-! ## Steps of the frame -/

theorem Turns.goes {x : Emit α} {a : Frame → α} {u : Frame → Frame} (hx : Turns x a u)
    {held' : α → List RegisterId} {ren : (Nat → Nat) → α → α} {n : Nat}
    (h : Abreast history held blocks e e') (hm : Moved n e.frame (u e.frame))
    (ht : Twins later (u e.frame) (u e'.frame)) (hp : history <+: later)
    (ho : (u e.frame).Owned (held' (a e.frame)))
    (ha : Follows later ren (a e.frame) (a e'.frame)) : Goes history blocks held' ren x x e e' :=
  Both.of_ok (hx e) (hx e') ⟨later, hp, h.moved hm ht hp ho, ha⟩

theorem follows_unit (history : List Event) : Follows history kept () () := fun _ _ => rfl

theorem follows_eq (history : List Event) (h : a = b) : Follows history kept a b :=
  fun _ _ => h

namespace InStep

theorem pure (a : α) : InStep (Pure.pure a) := fun _ _ _ _ _ h => .pure h (follows_eq _ rfl)

theorem seq {y : Emit β} (hx : InStep x) (hy : InStep y) : InStep (x >>= fun _ => y) :=
  fun _ _ _ _ _ h => (hx h).bind fun _ hd _ => hy hd

theorem forM (as : List β) {x : β → Emit Unit} (hx : ∀ a, InStep (x a)) : InStep (as.forM x) := by
  induction as with
  | nil => exact .pure ()
  | cons a rest ih => exact (hx a).seq ih

end InStep

/-- A look at the frame. -/
theorem goes_frame {held' : β → List RegisterId} {ren : (Nat → Nat) → β → β} {k l : Frame → Emit β}
    (hk : Goes history blocks held' ren (k e.frame) (l e'.frame) e e') :
    Goes history blocks held' ren (frame >>= k) (frame >>= l) e e' :=
  .of_run (turns_frame e) (turns_frame e') (List.prefix_refl _) hk

theorem goes_accessed (index : Nat) : InStep (attempt' fun f => f.afterLocalAccess index) := by
  intro _ _ _ _ _ h
  obtain ⟨later, hp, ht⟩ := h.frames.accessed index
  exact (turns_attempt' fun f => f.afterLocalAccess_eq index).goes h (.accessed _ index) ht hp
    (h.owned.accessed index) (follows_unit _)

theorem goes_drained : InStep (attempt' Frame.drainPending) := by
  intro _ _ _ _ _ h
  obtain ⟨later, hp, ht⟩ := h.frames.drained
  exact (turns_attempt' drainPending_eq).goes h (.drained _) ht hp h.owned.drained (follows_unit _)

theorem goes_pushLiteral (l : Literal) : InStep (change fun f => f.pushLiteral l) :=
  fun _ _ _ _ _ h => (turns_change _).goes h (.pushLiteral _ l) (h.frames.pushLiteral l)
    (List.prefix_refl _) (h.owned.pushLiteral l) (follows_unit _)

theorem goes_tick : InStep (change Frame.tick) := fun _ _ _ _ _ h =>
  (turns_change _).goes h (.tick _) (h.frames.map Frame.tick fun _ _ _ => rfl) (List.prefix_refl _)
    h.owned.tick (follows_unit _)

variable {a : Register}

section

variable (h : Abreast history held blocks e e')
include h

theorem goes_pop : Goes history blocks (fun _ => held) Operand.rename pop pop e e' := by
  obtain ⟨later, hp, ht⟩ := h.frames.popped h.owned
  exact turns_pop.goes h (.popped _) ht hp h.owned.popped fun ρ hρ =>
    h.frames.top h.owned (hρ.mono hp)

theorem goes_temporary :
    Goes history blocks (fun id => id :: held) kept temporary temporary e e' := by
  obtain ⟨hid, later, hp, ht⟩ := h.frames.temporary
  exact turns_temporary.goes h (.temporary _) ht hp h.owned.temporary (follows_eq _ hid)

theorem goes_peek (n : Nat) : Goes history blocks (fun _ => held) Operand.rename
    (step fun f => f.peek n) (step fun f => f.peek n) e e' := by
  obtain ⟨ht, hv⟩ := h.frames.peek h.owned n
  exact (turns_step _).goes h (.peek _ n) ht (List.prefix_refl _) (h.owned.peek n) hv

theorem goes_pushRegister {held' : List RegisterId} (ha : e.frame.registers.get? id = some a)
    (ho : (e.frame.pushRegister id).Owned held') :
    Goes history blocks (fun _ => held') kept
      (change fun f => f.pushRegister id) (change fun f => f.pushRegister id) e e' := by
  obtain ⟨later, hp, ht⟩ := h.frames.pushRegister ha
  exact (turns_change _).goes h (.pushRegister _ id) ht hp ho (follows_unit _)

/-! ## Lines -/

theorem goes_line {s t : Line} (hst : ∀ ρ, Places history ρ → s.Matches ρ t) :
    Goes history blocks (fun _ => held) kept (line s) (line t) e e' :=
  Both.of_ok rfl rfl ⟨history, List.prefix_refl _, h.line hst, follows_unit _⟩

theorem goes_code {s t : Line} (hst : Follows history Line.rename s t) :
    Goes history blocks (fun _ => held) kept (line s) (line t) e e' :=
  goes_line h fun ρ hρ => hst ρ hρ ▸ .renamed (.code t)

theorem goes_stmt {s t : Stmt} (hst : Follows history Stmt.rename s t) :
    Goes history blocks (fun _ => held) kept (stmt s) (stmt t) e e' :=
  goes_code h fun ρ hρ => congrArg Line.stmt (hst ρ hρ)

theorem goes_lines {s t : List Line}
    (hst : Follows history (fun ρ => List.map (Line.rename ρ)) s t) :
    Goes history blocks (fun _ => held) kept (s.forM line) (t.forM line) e e' := by
  induction t generalizing s history e e' with
  | nil =>
    obtain rfl : s = [] := hst _ (places_slotOf history)
    exact .pure h (follows_unit _)
  | cons t rest ih =>
    cases s with
    | nil => cases hst _ (places_slotOf history)
    | cons s more =>
      have hfirst : Follows history Line.rename s t := fun ρ hρ => (List.cons.inj (hst ρ hρ)).1
      have hrest : Follows history (fun ρ => List.map (Line.rename ρ)) more rest :=
        fun ρ hρ => (List.cons.inj (hst ρ hρ)).2
      exact (goes_code h hfirst).bind fun hp hd _ => ih hd (hrest.mono hp)

end

theorem goes_fixed {l : Line} (hl : ∀ ρ, l = l.rename ρ) : InStep (line l) :=
  fun _ _ _ _ _ h => goes_code h fun ρ _ => hl ρ

theorem goes_deeper : InStep deeper := fun _ _ _ _ _ h =>
  Both.of_ok rfl rfl ⟨_, List.prefix_refl _, { h with indent := congrArg (· + 1) h.indent },
    follows_unit _⟩

theorem goes_shallower : InStep shallower := fun _ _ _ _ _ h =>
  Both.of_ok rfl rfl ⟨_, List.prefix_refl _, { h with indent := congrArg (· - 1) h.indent },
    follows_unit _⟩

theorem goes_warn (w : Warning) : InStep (warn w) :=
  InStep.seq (fun _ _ _ _ _ h => (turns_change _).goes h (.warn _ _) (h.frames.warn _)
    (List.prefix_refl _) (h.owned.warn _) (follows_unit _)) (goes_fixed fun _ => rfl)

section

variable (h : Abreast history held blocks e e')
include h

theorem goes_popMany (n : Nat) : Goes history blocks (fun _ => held)
    (fun ρ => List.map (Operand.rename ρ)) (popMany n) (popMany n) e e' := by
  induction n generalizing history e e' with
  | zero => exact .pure h fun _ _ => rfl
  | succ n ih =>
    refine (goes_pop h).bind fun hp hd hlast => ?_
    refine (ih hd).bind fun hp' hd' hfront => ?_
    refine .pure hd' fun ρ hρ => ?_
    rw [hfront ρ hρ, hlast.mono hp' ρ hρ, List.map_append]
    rfl

/-! ## Registers in code -/

theorem goes_assign (ha : e.frame.registers.get? id = some a) {v v' : Expr}
    (hv : Follows history Expr.rename v v') :
    Goes history blocks (fun _ => held) kept (assign id v) (assign id v') e e' :=
  Both.of_ok rfl rfl ⟨history, List.prefix_refl _, h.assigned ha hv, follows_unit _⟩

/-- An operand is copied to a register in both runs or in neither, if it is in the slot of the
register in both or in neither. -/
theorem runs_copy (ha : e.frame.registers.get? id = some a) {v v' : Operand}
    (hv : Follows history Operand.rename v v')
    (hiff : v = .slot (e.frame.registers.slotOf id) ↔ v' = .slot (e'.frame.registers.slotOf id)) :
    ∃ lines lines', copy id v e = .ok () { e with lines } ∧
      copy id v' e' = .ok () { e' with lines := lines' } ∧
      Abreast history held blocks { e with lines } { e' with lines := lines' } := by
  unfold copy
  rw [bind_ok (turns_slotOf id e), bind_ok (turns_slotOf id e')]
  by_cases hsame : v = .slot (e.frame.registers.slotOf id)
  · rw [if_neg (by simpa using hsame), if_neg (by simpa using hiff.1 hsame)]
    exact ⟨_, _, rfl, rfl, h⟩
  · rw [if_pos hsame, if_pos (mt hiff.2 hsame)]
    refine ⟨_, _, rfl, rfl, h.assigned ha (w := .operand v') fun ρ hρ => ?_⟩
    exact congrArg Expr.operand (hv ρ hρ)

end

/-- Both runs have an expression, or neither. -/
theorem follows_option {ren : (Nat → Nat) → α → α} {o o' : Option α}
    (h : Follows history (fun ρ => Option.map (ren ρ)) o o') :
    (o = none ∧ o' = none) ∨ ∃ a a', o = some a ∧ o' = some a' ∧ Follows history ren a a' := by
  cases o' with
  | none => exact .inl ⟨h _ (places_slotOf history), rfl⟩
  | some a' =>
    cases o with
    | none => cases h _ (places_slotOf history)
    | some a => exact .inr ⟨a, a', rfl, rfl, fun ρ hρ => Option.some.inj (h ρ hρ)⟩

/-- A register in hand goes to the stack. -/
theorem goes_pushHeld (h : Abreast history (id :: held) blocks e e') :
    Goes history blocks (fun _ => held) kept
      (change fun f => f.pushRegister id) (change fun f => f.pushRegister id) e e' := by
  obtain ⟨a, ha, -⟩ := h.owned.held_live
  exact goes_pushRegister h ha h.owned.pushHeld

/-- A register is made for a result. -/
theorem goes_result (h : Abreast history held blocks e e') {held' : β → List RegisterId}
    {ren : (Nat → Nat) → β → β} {k l : RegisterId → Emit β}
    (hk : ∀ {id later d d'}, history <+: later → Abreast later (id :: held) blocks d d' →
      Goes later blocks held' ren (k id) (l id) d d') :
    Goes history blocks held' ren (temporary >>= k) (temporary >>= l) e e' := by
  refine (goes_temporary h).bind fun hp hd hid => ?_
  rw [← hid.eq]
  exact hk hp hd

/-! ## Locals -/

/-- The register of a local is looked up. -/
theorem goes_localRegister (h : Abreast history held blocks e e')
    (hi : index < e.frame.localTypes.length) {k l : RegisterId → Emit β}
    (hk : ∀ {later id}, history <+: later →
      Abreast later held blocks { e with frame := (e.frame.localRegister index).2 }
        { e' with frame := (e'.frame.localRegister index).2 } →
      (e.frame.localRegister index).2.locals[index]? = some (some id) →
      Goes later blocks held₂ ren' (k id) (l id) { e with frame := (e.frame.localRegister index).2 }
        { e' with frame := (e'.frame.localRegister index).2 }) :
    Goes history blocks held₂ ren' (step (fun f => f.localRegister index) >>= k)
      (step (fun f => f.localRegister index) >>= l) e e' := by
  obtain ⟨hid, later, hp, ht⟩ := h.frames.localRegister index
  obtain ⟨ho, hb⟩ := h.owned.localRegister hi
  refine .of_run (run_step _ e) (run_step _ e') hp ?_
  rw [← hid]
  exact hk hp (h.moved (.localRegister _ index) ht hp ho) hb

/-- A local goes to the stack, and its access ends. -/
theorem goes_pushBound (h : Abreast history held blocks e e')
    (hb : e.frame.locals[index]? = some (some id)) :
    Goes history blocks (fun _ => held) kept
      (do change fun f => f.pushRegister id; attempt' fun f => f.afterLocalAccess index)
      (do change fun f => f.pushRegister id; attempt' fun f => f.afterLocalAccess index) e e' := by
  obtain ⟨a, ha, -⟩ := h.owned.bound hb
  exact (goes_pushRegister h ha (h.owned.pushBound hb)).bind fun _ hd _ => goes_accessed index hd

theorem goes_localGet (index : Nat) : InStep (localGet index) := by
  intro _ _ _ e e' h
  refine goes_frame ?_
  rw [← h.frames.same Frame.localTypes fun _ _ _ => rfl]
  by_cases hi : e.frame.localTypes.length ≤ index
  · rw [if_pos hi]
    exact ((goes_warn _).seq (goes_pushLiteral _)) h
  · rw [if_neg hi]
    exact goes_localRegister h (Nat.lt_of_not_le hi) fun _ hd hb => goes_pushBound hd hb

section

variable (h : Abreast history held blocks e e')
include h

/-- The operand that was on top is copied to a live register. -/
theorem goes_topCopy {f f' : Frame} (hl : e.frame.Later f) (hl' : e'.frame.Later f')
    (hp : history <+: later)
    (hd : Abreast later held blocks { e with frame := f } { e' with frame := f' })
    (ha : e.frame.registers.get? id = some a) (hlive : a.live = true)
    {x : Emit Unit} (hx : ∀ {lines lines'}, Abreast later held blocks { e with frame := f, lines }
      { e' with frame := f', lines := lines' } → Goes later blocks (fun _ => held) kept x x
        { e with frame := f, lines } { e' with frame := f', lines := lines' }) :
    Goes later blocks (fun _ => held) kept (do copy id e.frame.top; x) (do copy id e'.frame.top; x)
      { e with frame := f } { e' with frame := f' } := by
  obtain ⟨b, hb, -⟩ := hl.register ha
  have hiff := h.frames.top_eq_slot_iff h.owned ha hlive
  rw [← hl.slotOf ha, ← hl'.slotOf (h.frames.get? ha)] at hiff
  obtain ⟨lines, lines', hrun, hrun', hlast⟩ :=
    runs_copy hd hb (fun ρ hρ => h.frames.top h.owned (hρ.mono hp)) hiff
  exact .of_run hrun hrun' (List.prefix_refl _) (hx hlast)

/-- The top operand is popped and copied to a live register. -/
theorem goes_popCopy (ha : e.frame.registers.get? id = some a)
    (hlive : a.live = true) {x : Emit Unit}
    (hx : ∀ {later lines lines'},
      Abreast later held blocks { e with frame := e.frame.popped, lines }
        { e' with frame := e'.frame.popped, lines := lines' } → Goes later blocks (fun _ => held) kept
        x x { e with frame := e.frame.popped, lines }
        { e' with frame := e'.frame.popped, lines := lines' }) :
    Goes history blocks (fun _ => held) kept (do let value ← pop; copy id value; x)
      (do let value ← pop; copy id value; x) e e' := by
  obtain ⟨later, hp, ht⟩ := h.frames.popped h.owned
  exact .of_run (turns_pop e) (turns_pop e') hp (goes_topCopy h (later_popped _) (later_popped _) hp
    (h.moved (.popped _) ht hp h.owned.popped) ha hlive hx)

end

/-- The end of a write to a local whose register is not on the stack. -/
theorem goes_storeLocal (h : Abreast history held blocks e e')
    (hb : e.frame.locals[index]? = some (some id)) (hn : .register id ∉ e.frame.stack)
    (keep : Bool) : Goes history blocks (fun _ => held) kept (storeLocal index keep id)
      (storeLocal index keep id) e e' := by
  obtain ⟨a, ha, hl, -⟩ := h.owned.bound hb
  refine goes_popCopy h ha hl fun hd => ?_
  cases keep with
  | false => exact goes_accessed index hd
  | true => exact goes_pushBound hd (Owned.bound_popped hb hn)

theorem goes_localSet (index : Nat) (keep : Bool) : InStep (localSet index keep) := by
  intro _ _ _ e e' h
  refine goes_frame ?_
  rw [← h.frames.same Frame.localTypes fun _ _ _ => rfl]
  by_cases hi : e.frame.localTypes.length ≤ index
  · rw [if_pos hi]
    refine (goes_warn _ h).bind fun _ hd _ => (goes_pop hd).bind fun _ hd _ => ?_
    cases keep with
    | false => exact .pure hd (follows_unit _)
    | true => exact goes_pushLiteral _ hd
  · rw [if_neg hi]
    refine goes_localRegister h (Nat.lt_of_not_le hi) fun {_ id} _ hd hb => ?_
    obtain ⟨a, ha, -⟩ := hd.owned.bound hb
    obtain ⟨last, hp', ht', hs⟩ := hd.frames.detachAliases ha
    obtain ⟨ho', hn⟩ := hd.owned.detachAliases hb
    have hd' := hd.moved (.detachAliases _ id) ht' hp' ho'
    have hb' := locals_detachAliases _ id ▸ hb
    refine .of_run (run_step _ _) (run_step _ _) hp' ?_
    obtain ⟨hx, hy⟩ | ⟨s, t, hx, hy, hst⟩ := follows_option hs
    · rw [hx, hy]
      exact goes_storeLocal hd' hb' hn keep
    · rw [hx, hy]
      have hlast := hd'.line (s := .stmt s) (t := .stmt t)
        fun ρ hρ => hst ρ hρ ▸ .renamed (.code (.stmt t))
      exact .of_run rfl rfl (List.prefix_refl _) (goes_storeLocal hlast hb' hn keep)

end Emit

end Moonstack
