import Moonstack.Proofs.Emission.Discipline
import Moonstack.Proofs.Emission.Plain

/-!
# All that an emission writes

A `Rule` is a property of a frame and the code so far. `Emit.Passes r n x m R` says that `x` keeps
to the rule, goes from indentation `n` to `m`, and under the condition gives a value with the
property `R`. This is a discipline.
-/

namespace Moonstack

/-- A property of a frame and of the code so far that the steps of an emission keep. -/
structure Rule where
  ok : Prop
  Keeps : Frame → List Line → Prop
  plain : ∀ {f code l}, l.Plain ok → Keeps f code → Keeps f (code ++ [l])
  passed : ∀ {f g code}, f.Passed g → (f.Proper → g.Proper) → Keeps f code → Keeps g code
  proper : ok → ∀ {f code}, Keeps f code → f.Proper

/-- A rule that allows any line that is clear under the condition, and places to resume at. -/
structure Rule.Wide (r : Rule) : Prop where
  clear : ∀ {f code l}, (r.ok → l.Clear) → r.Keeps f code → r.Keeps f (code ++ [l])
  site : ∀ {f code} s, r.Keeps f code → r.Keeps { f with sites := f.sites.push s } code

/-- The rule holds of an emission at an indentation. -/
structure Rule.Holds (r : Rule) (n : Nat) (e : Emission) : Prop where
  indent : e.indent = n
  keeps : r.Keeps e.frame e.code

namespace Emit

variable {α β : Type} {r : Rule} {n m k : Nat}

/-- A computation that keeps to the rule, from one indentation to another. -/
def Passes (r : Rule) (n : Nat) (x : Emit α) (m : Nat) (R : α → Prop) : Prop :=
  ∀ e a e', r.Holds n e → x e = .ok a e' → r.Holds m e' ∧ R a

theorem Passes.bind {R : α → Prop} {S : β → Prop} {x : Emit α} {y : α → Emit β}
    (hx : Passes r n x m R) (hy : ∀ a, R a → Passes r m (y a) k S) : Passes r n (x >>= y) k S := by
  intro e b e' he h
  obtain ⟨a, e₁, h₁, h₂⟩ := ok_of_bind h
  obtain ⟨he₁, ha⟩ := hx e a e₁ he h₁
  exact hy a ha e₁ b e' he₁ h₂

theorem passes_frame : Passes r n frame n (fun f => r.ok → f.Proper) := by
  intro e a e' he hx
  cases hx
  exact ⟨he, fun hok => r.proper hok he.keeps⟩

theorem passes_line {l : Line} (h : ∀ f code, r.Keeps f code → r.Keeps f (code ++ [l])) :
    Passes r n (line l) n Any := by
  intro e a e' he hx
  cases hx
  refine ⟨⟨he.indent, ?_⟩, trivial⟩
  simpa [Emission.code] using h _ _ he.keeps

end Emit

open Emit

/-- Keeping to a rule is a discipline. -/
def Rule.discipline (r : Rule) : Discipline where
  ok := r.ok
  jumps := ∀ {f code l}, l.fresh = true → (r.ok → l.Clear) → r.Keeps f code →
    r.Keeps f (code ++ [l])
  Holds := Passes r
  done h e a e' he hx := by
    cases hx
    exact ⟨he, h⟩
  fail _ e a e' _ hx := by cases hx
  chain := Passes.bind
  look _ hy := passes_frame.bind hy
  turn ht hR e a e' he hx := by
    rw [ht.turns e] at hx
    cases hx
    exact ⟨⟨he.indent, r.passed (ht.passed _) ht.proper he.keeps⟩,
      hR _ fun hok => r.proper hok he.keeps⟩
  plain h := passes_line fun _ _ => r.plain h
  clear hj hr h := passes_line fun _ _ => hj hr h
  deeper e a e' he hx := by
    cases hx
    exact ⟨⟨congrArg (· + 1) he.indent, he.keeps⟩, trivial⟩
  shallower e a e' he hx := by
    cases hx
    exact ⟨⟨congrArg (· - 1) he.indent, he.keeps⟩, trivial⟩

section

variable {r : Rule} {n : Nat}

theorem Emit.passes_comment {text : String} (h : r.ok → OneLine text) :
    Passes r n (line (.comment text)) n Any :=
  passes_line fun _ _ => r.plain (Line.plain_comment h)

theorem Emit.passes_begin (i : Instr)
    (hnames : r.ok → ∀ name ∈ i.unsupportedNames, OneLine name) : Passes r n (begin i) n Any := by
  refine Passes.bind (holds_tick (d := r.discipline)) fun _ _ => passes_frame.bind fun f _ =>
    Passes.bind (holds_zeroLocals (d := r.discipline) _) fun _ _ => ?_
  split
  · refine passes_comment fun hok => ?_
    exact ((i.oneLine_mnemonic (hnames hok)).append (.ofList (by decide) : OneLine " @")).append
      (oneLine_toString _)
  · exact r.discipline.done trivial

theorem Emit.passes_notes {notes : List String} (h : r.ok → ∀ t ∈ notes, OneLine t) :
    Passes r n (notes.forM fun t => line (.comment t)) n Any := by
  induction notes with
  | nil => exact r.discipline.done trivial
  | cons t rest ih =>
    exact (passes_comment fun hok => h hok t (by simp)).bind fun _ _ =>
      ih fun hok t' ht => h hok t' (by simp [ht])

theorem Emit.passes_finish : Passes r n finish n Any := by
  have hforget : Passes r n (change fun f => { f with notes := #[] }) n Any :=
    holds_change (d := r.discipline) (fun _ => .of_locals rfl rfl Nat.le.refl)
      (fun h => ⟨h.stack, by simp⟩) fun _ => rfl
  have hdrain : Passes r n (attempt' Frame.drainPending) n Any :=
    holds_drained (d := r.discipline)
  refine passes_frame.bind fun f hf => hforget.bind fun _ _ => ?_
  have hnotes : Passes r n (f.notes.forM fun t => line (.comment t)) n Any := by
    rw [forM_toList]
    exact passes_notes fun hok t ht => (hf hok).notes t (by simpa using ht)
  refine hnotes.bind fun _ _ => passes_frame.bind fun g _ => ?_
  split
  · refine (passes_comment fun _ => ?_).bind fun _ _ => hdrain
    exact (.ofList (by decide) : OneLine "stack depth ").append (oneLine_toString _)
  · exact hdrain

/-- A rule that allows all lines allows all code. -/
theorem Rule.Wide.full (hw : r.Wide) : r.discipline.Full where
  jumps _ := hw.clear
  saves _ _ _ hm offset := holds_savePlace (d := r.discipline) hm offset
    (fun _ h => passes_line fun _ _ => hw.clear h) fun s e a e' he hx => by
      cases hx
      exact ⟨⟨he.indent, hw.site s he.keeps⟩, trivial⟩
  begun _ i hnames := passes_begin i hnames
  finished _ := passes_finish

end

/-- Nothing is asked but the indentation. -/
def Rule.free : Rule where
  ok := False
  Keeps _ _ := True
  plain _ _ := trivial
  passed _ _ _ := trivial
  proper h := h.elim

theorem Rule.wide_free : Rule.free.Wide := ⟨fun _ _ => trivial, fun _ _ => trivial⟩

/-- Lines of the code that store records store slots of the frame, and there are none without a place
to resume at. No line declares slots. -/
def Frame.Saves (f : Frame) (code : List Line) : Prop :=
  ∀ l ∈ code, l.fresh = true ∨ ∃ place slots target, l = .stmt (.capture place slots target) ∧
    slots ≤ f.registers.slotCount ∧ f.sites ≠ #[]

section

variable {f : Frame} {code : List Line} (h : f.Saves code)
include h

theorem Frame.Saves.record {place : Expr} {slots : Nat} {target : Label}
    (hm : .stmt (.capture place slots target) ∈ code) :
    slots ≤ f.registers.slotCount ∧ f.sites ≠ #[] := by
  obtain hl | ⟨_, _, _, hl, hs⟩ := h _ hm
  · cases hl
  · cases hl
    exact hs

theorem Frame.Saves.line {l : Line} (hl : l.fresh = true) : f.Saves (code ++ [l]) := by
  intro l' hm
  obtain hm | hm := List.mem_append.1 hm
  · exact h _ hm
  · exact .inl (List.mem_singleton.1 hm ▸ hl)

/-- Records of slots are written for places to resume at only. -/
def Rule.saves : Rule where
  ok := False
  Keeps f code := f.Saves code
  plain h hk := hk.line h.fresh
  passed h _ hk l hm := (hk l hm).imp_right fun ⟨_, _, _, hl, hslots, hsites⟩ =>
    ⟨_, _, _, hl, Nat.le_trans hslots h.slots, h.sites ▸ hsites⟩
  proper h := h.elim

theorem Frame.Saves.saved (handle : String) (offset : Nat) :
    (f.saved offset).Saves (code ++ f.saveCode handle offset) := by
  have hr : f.saving.Sheds f.resumed := .pushRegister _ _
  have hf := ((Sheds.temporary f).trans ((Sheds.popped _).trans hr)).toPassed
  have hbefore := Rule.saves.passed hf (fun h => h.temporary.popped.pushRegister _) h
  unfold saveCode Frame.saved
  intro l hm
  simp only [registers_warnAll]
  obtain hm | hm := List.mem_append.1 hm
  · exact (hbefore l hm).imp_right fun ⟨_, _, _, hl, hslots, _⟩ =>
      ⟨_, _, _, hl, hslots, Array.push_ne_empty⟩
  · simp only [List.cons_append, List.nil_append, List.mem_cons, List.mem_ite_nil_right,
      List.not_mem_nil, or_false] at hm
    obtain rfl | rfl | rfl | ⟨-, rfl⟩ := hm
    · exact .inr ⟨_, _, _, rfl, hr.slots, Array.push_ne_empty⟩
    all_goals exact .inl rfl

end

theorem Rule.full_saves : Rule.saves.discipline.Full where
  jumps hl _ h := h.line hl
  saves n _ handle hm offset e a e' he hx := by
    have hindent := (Rule.wide_free.full.saves n hm offset e a e' ⟨he.indent, trivial⟩ hx).1.indent
    obtain ⟨e₁, h₁, hf, hc⟩ := writes_savePlace handle offset e.frame e rfl
    rw [h₁] at hx
    cases hx
    refine ⟨⟨hindent, ?_⟩, trivial⟩
    rw [hf, hc]
    exact Frame.Saves.saved he.keeps handle offset
  begun _ i hnames := passes_begin i hnames
  finished _ := passes_finish

end Moonstack
