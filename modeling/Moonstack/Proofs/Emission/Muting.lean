import Moonstack.Proofs.Emission.Lockstep
import Moonstack.Proofs.Emission.Texts

/-!
# Debug comments

What is left of an emission without debug options, debug comments and comment lines is its `mute`.
`Emit.Muted x y` says that two computations, run from emissions that are the same but for comments,
fail alike or give the same value and leave emissions that are the same but for comments. That a
computation does so with itself is a discipline (`Emit.silence`), which allows all code
(`Emit.full_silence`).
-/

namespace Moonstack

def Line.isComment : Line → Bool
  | comment _ => true
  | _ => false

/-- The emission without debug options, debug comments and comment lines. -/
def Emission.mute (e : Emission) : Emission :=
  { e with
    frame := e.frame.mute
    lines := e.lines.filter fun p => !p.line.isComment }

namespace Emit

open Moonstack.Frame

variable {α β : Type}
variable {x : Emit α} {R : α → Prop}

/-- From emissions that are the same but for comments, the runs fail alike, or they give the same
value and leave such emissions. -/
def Muted (x y : Emit α) : Prop :=
  ∀ e e' : Emission, e.mute = e'.mute →
    Both x y e e' fun a b d d' => a = b ∧ d.mute = d'.mute

/-- The computation does the same whatever the debug options are, up to comments. -/
abbrev Inert (x : Emit α) : Prop := Muted x x

/-- Besides, the value has a property. -/
def Silent (x : Emit α) (R : α → Prop) : Prop :=
  ∀ e e' : Emission, e.mute = e'.mute →
    Both x x e e' fun a b d d' => (a = b ∧ R a) ∧ d.mute = d'.mute

/-- The computation writes comments only. -/
def Remarks (x : Emit Unit) : Prop := ∀ e, ∃ d, x e = .ok () d ∧ d.mute = e.mute

theorem Muted.bind {y : Emit α} {k l : α → Emit β} (hx : Muted x y) (hk : ∀ a, Muted (k a) (l a)) :
    Muted (x >>= k) (y >>= l) := by
  intro e e' he
  refine (hx e e' he).bind ?_
  rintro a b d d' ⟨rfl, hd⟩
  exact hk a d d' hd

theorem Remarks.muted {x y : Emit Unit} (hx : Remarks x) (hy : Remarks y) : Muted x y := by
  intro e e' he
  obtain ⟨d, hd, hmute⟩ := hx e
  obtain ⟨d', hd', hmute'⟩ := hy e'
  exact Both.of_ok hd hd' ⟨rfl, hmute.trans (he.trans hmute'.symm)⟩

theorem Remarks.pure : Remarks (Pure.pure ()) := fun e => ⟨e, rfl, rfl⟩

theorem Remarks.bind {x : Emit Unit} {k : Unit → Emit Unit} (hx : Remarks x)
    (hk : Remarks (k ())) : Remarks (x >>= k) := by
  intro e
  obtain ⟨d, hd, hmute⟩ := hx e
  obtain ⟨d', hd', hmute'⟩ := hk d
  exact ⟨d', (bind_ok hd).trans hd', hmute'.trans hmute⟩

theorem remarks_comment (text : String) : Remarks (line (.comment text)) := by
  intro e
  refine ⟨_, rfl, ?_⟩
  simp [Emission.mute, Line.isComment]

/-- A look at the frame. -/
theorem muted_frame {k l : Frame → Emit β}
    (hk : ∀ f g : Frame, f.mute = g.mute → Muted (k f) (l g)) :
    Muted (frame >>= k) (frame >>= l) := by
  intro e e' he
  have hf : e.frame.mute = e'.frame.mute := congrArg Emission.frame he
  exact Both.of_run (turns_frame e) (turns_frame e') (hk _ _ hf e e' he)

theorem inert_line (l : Line) : Inert (line l) := by
  intro e e' he
  refine Both.of_ok rfl rfl ⟨rfl, ?_⟩
  have hf : e.frame.mute = e'.frame.mute := congrArg Emission.frame he
  have hl : e.mute.lines = e'.mute.lines := congrArg Emission.lines he
  have hi : e.indent = e'.indent := (congrArg Emission.indent he : e.mute.indent = e'.mute.indent)
  simp only [Emission.mute] at hl
  simp only [Emission.mute, hf, hi, Array.filter_push, hl]

theorem inert_deeper : Inert deeper := fun _ _ he =>
  Both.of_ok rfl rfl ⟨rfl, congrArg (fun d : Emission => { d with indent := d.indent + 1 }) he⟩

theorem inert_shallower : Inert shallower := fun _ _ he =>
  Both.of_ok rfl rfl ⟨rfl, congrArg (fun d : Emission => { d with indent := d.indent - 1 }) he⟩

theorem Silent.inert (h : Silent x R) : Inert x :=
  fun e e' he => (h e e' he).mono fun _ _ _ _ ⟨hab, hd⟩ => ⟨hab.1, hd⟩

theorem silent_of_inert (h : Inert x) : Silent x Any :=
  fun e e' he => (h e e' he).mono fun _ _ _ _ ⟨hab, hd⟩ => ⟨⟨hab, trivial⟩, hd⟩

theorem Turns.silent {a : Frame → α} {u : Frame → Frame} (hx : Turns x a u)
    (ha : ∀ f : Frame, a f.mute = a f) (hu : Deaf u) (hR : ∀ f, R (a f)) : Silent x R := by
  intro e e' he
  have hf : e.frame.mute = e'.frame.mute := congrArg Emission.frame he
  refine Both.of_ok (hx e) (hx e') ⟨⟨?_, hR _⟩, ?_⟩
  · rw [← ha e.frame, hf, ha]
  · have hframe : (u e.frame).mute = (u e'.frame).mute := by rw [← hu, hf, hu]
    change { e.mute with frame := (u e.frame).mute } = { e'.mute with frame := (u e'.frame).mute }
    rw [he, hframe]

theorem Silent.bind {y : α → Emit β} {S : β → Prop} (hx : Silent x R)
    (hy : ∀ a, R a → Silent (y a) S) : Silent (x >>= y) S := by
  intro e e' he
  refine (hx e e' he).bind ?_
  rintro a b d d' ⟨⟨rfl, ha⟩, hd⟩
  exact hy a ha d d' hd

/-- A look at the frame, of which neither debug options nor debug comments are used. -/
theorem silent_frame {y : Frame → Emit β} {S : β → Prop} (hm : ∀ f : Frame, y f.mute = y f)
    (hy : ∀ f, Silent (y f) S) : Silent (frame >>= y) S := by
  intro e e' he
  have hf : e.frame.mute = e'.frame.mute := congrArg Emission.frame he
  refine Both.of_run (turns_frame e) (turns_frame e') ?_
  rw [← hm e.frame, hf, hm]
  exact hy _ e e' he

/-- That debug options do not matter, up to comments, is a discipline. -/
def silence : Discipline where
  ok := False
  jumps := True
  Holds _ x _ R := Silent x R
  done h _ _ he := Both.of_ok rfl rfl ⟨⟨rfl, h⟩, he⟩
  fail _ _ _ _ := Both.of_error rfl rfl
  chain := Silent.bind
  look hm hy := silent_frame hm fun f => hy f False.elim
  turn ht hR := ht.turns.silent ht.value ht.deaf fun f => hR f False.elim
  plain _ := silent_of_inert (inert_line _)
  clear _ _ _ := silent_of_inert (inert_line _)
  deeper := silent_of_inert inert_deeper
  shallower := silent_of_inert inert_shallower

/-- A comment that depends on the debug options. -/
theorem remarks_if (wanted : Bool) (text : String) :
    Remarks (if wanted then line (.comment text) else Pure.pure ()) := by
  cases wanted with
  | false => exact .pure
  | true => exact remarks_comment text

theorem inert_begin (i : Instr) : Inert (begin i) := by
  refine (Silent.inert (holds_tick (d := silence) (n := 0))).bind fun _ => muted_frame fun f g hf => ?_
  have hforced : f.mute.lifetimes.forcedAt f.mute.clock = g.mute.lifetimes.forcedAt g.mute.clock := by
    rw [hf]
  have hzero : zeroLocals (f.lifetimes.forcedAt f.clock) = zeroLocals (g.lifetimes.forcedAt g.clock) :=
    congrArg zeroLocals hforced
  rw [hzero]
  refine (Silent.inert (holds_zeroLocals (d := silence) (n := 0) _)).bind fun _ => ?_
  exact (remarks_if f.debug.instructions _).muted (remarks_if g.debug.instructions _)

theorem remarks_notes (notes : List String) :
    Remarks (notes.forM fun note => line (.comment note)) := by
  induction notes with
  | nil => exact .pure
  | cons note rest ih => exact (remarks_comment note).bind ih

theorem inert_finish : Inert finish := by
  refine muted_frame fun f g _ => ?_
  have hforget : Inert (change fun f => { f with notes := #[] }) :=
    ((turns_change _).silent (R := Any) (fun _ => rfl) (fun _ => rfl) fun _ => trivial).inert
  refine hforget.bind fun _ => ?_
  rw [forM_toList, forM_toList]
  refine ((remarks_notes _).muted (remarks_notes _)).bind fun _ => muted_frame fun f g _ => ?_
  have hdrain : Inert (attempt' Frame.drainPending) :=
    Silent.inert (holds_drained (d := silence) (n := 0))
  have hremark (wanted : Bool) (text : String) :
      (if wanted = true then (do line (.comment text); attempt' Frame.drainPending)
        else attempt' Frame.drainPending) =
      (do (if wanted = true then line (.comment text) else Pure.pure ());
          attempt' Frame.drainPending) := by
    cases wanted <;> rfl
  simp only [hremark]
  exact ((remarks_if _ _).muted (remarks_if _ _)).bind fun _ => hdrain

/-- All code may be written. -/
theorem full_silence : silence.Full where
  jumps := trivial
  saves _ _ _ hm offset := holds_savePlace (d := silence) hm offset
    (fun _ _ => silent_of_inert (inert_line _))
    fun _ => (turns_change _).silent (fun _ => rfl) (fun _ => rfl) fun _ => trivial
  begun _ i _ := silent_of_inert (inert_begin i)
  finished _ := silent_of_inert inert_finish

theorem inert_function (env : Env) (count : Nat) (code : List Instr) :
    Inert (function env count code) :=
  Silent.inert (holds_function full_silence False.elim count False.elim 0)

end Emit

end Moonstack
