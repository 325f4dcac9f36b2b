import Moonstack.Proofs.Chunk.Names
import Moonstack.Proofs.Emission.Texts

/-!
# Balanced lines

In the code of a function every line closes what it opens, comments apart: parentheses, brackets,
braces and quotes. There is one exception. An operand that is missing is written as a closed
comment and a `nil`, and the negative of such an operand begins with two dashes too many: they
begin a comment that takes the rest of the line, with the parenthesis that would close the
expression (`balanced_lowerFunction`).
-/

namespace Moonstack

theorem Line.clear_resumeHeader (slots : Nat) (sites : List ResumeSite) :
    ∀ p ∈ resumeHeader slots sites, p.line.Clear := by
  have hrecord : (Expr.name jumpRecord).Tidy := neutral_of_isPlain (by decide)
  have hdata : "data".toList.all isPlain = true := by decide
  have htarget : "target".toList.all isPlain = true := by decide
  intro p hp
  simp only [resumeHeader, List.mem_append, List.mem_cons, List.not_mem_nil,
    or_false, List.mem_map, List.mem_range] at hp
  obtain ((rfl | ⟨n, -, rfl⟩) | ⟨⟨site, n⟩, -, rfl⟩) | rfl | rfl := hp
  · exact .inl hrecord
  · refine .inl ⟨⟨Expr.tidy_slot n, trivial⟩, ⟨hrecord, hdata⟩, ?_⟩
    exact isPlain_slotName n
  · refine .inl ⟨⟨⟨hrecord, htarget⟩, trivial⟩, ?_⟩
    split
    · exact Expr.tidy_error _
    · trivial
  · exact .inl trivial
  · exact .inl trivial

theorem Line.clear_header (f : Frame) : ∀ p ∈ header f, p.line.Clear := by
  intro p hp
  rw [header, List.mem_append] at hp
  obtain hp | hp := hp
  · split at hp
    · cases hp
    · obtain rfl := List.mem_singleton.1 hp
      exact .inl trivial
  · split at hp
    · cases hp
    · exact clear_resumeHeader _ _ p hp

/-- The lines are clear, and the frames hold texts that are in order. -/
def Rule.texts : Rule where
  ok := True
  Keeps f code := f.Proper ∧ ∀ l ∈ code, l.Clear
  plain h hk := ⟨hk.1, List.forall_mem_append.2 ⟨hk.2, List.forall_mem_singleton.2 (h.clear trivial)⟩⟩
  passed _ h hk := ⟨h hk.1, hk.2⟩
  proper _ _ _ hk := hk.1

theorem Rule.wide_texts : Rule.texts.Wide where
  clear h hk := ⟨hk.1, List.forall_mem_append.2 ⟨hk.2, List.forall_mem_singleton.2 (h trivial)⟩⟩
  site _ hk := ⟨hk.1.congr rfl rfl, hk.2⟩

variable {env : Env} {id name : String} {function : Function} {lowered : Lowered}

/-- Every line of a function is clear. -/
theorem clear_lowerFunction (henv : env.registry.Tidy)
    (hnames : ∀ name ∈ Instr.bodyUnsupportedNames function.body, OneLine name)
    (h : (lowerFunction env id name function).outcome.1 = .ok lowered) :
    ∀ p ∈ lowered.header ++ lowered.lines, p.line.Clear := by
  obtain ⟨signature, params, e, -, he, rfl⟩ := emitted_lowerFunction h
  have hstart : Rule.texts.Holds 0 { frame := function.startFrame env id signature } := by
    refine ⟨rfl, ⟨?_, ?_⟩, by simp [Emission.code]⟩ <;> simp [startFrame, Frame.start]
  have hpass := Emit.holds_function Rule.wide_texts.full (fun _ => henv) signature.params.length
    (fun _ => hnames) 0
  obtain ⟨hend, -⟩ := hpass _ _ _ hstart he
  intro p hp
  obtain hp | hp := List.mem_append.1 hp
  · exact Line.clear_header _ p hp
  · exact hend.keeps.2 _ (List.mem_map_of_mem hp)

/-- The lines of a function are the lines of its text. -/
theorem linesOf_lowerFunction (henv : env.registry.Tidy)
    (hnames : ∀ name ∈ Instr.bodyUnsupportedNames function.body, OneLine name)
    (h : (lowerFunction env id name function).outcome.1 = .ok lowered) :
    linesOf lowered.text = (lowered.header ++ lowered.lines).map Placed.row := by
  have hclear := clear_lowerFunction henv hnames h
  exact lowered.linesOf_text fun p hp => (hclear p hp).oneLine p.indent

/-- **A line of a function is balanced, or it takes the negative of a missing operand.** -/
theorem balanced_lowerFunction (m : Module) (options : Options)
    (hnames : ∀ name ∈ Instr.bodyUnsupportedNames function.body, OneLine name)
    (h : (lowerFunction ⟨options, (Registry.ofModule m).2⟩ id name function).outcome.1 =
      .ok lowered) :
    ∀ line ∈ linesOf lowered.text, balanced line = false ↔
      ∃ n slot, line = indentation n ++ (Line.damaged slot).text := by
  have hclear := clear_lowerFunction (Registry.tidy_ofModule m) hnames h
  rw [linesOf_lowerFunction (Registry.tidy_ofModule m) hnames h]
  intro line hline
  obtain ⟨p, hp, rfl⟩ := List.mem_map.1 hline
  constructor
  · intro hb
    obtain ⟨slot, hslot⟩ := ((hclear p hp).unbalanced_iff p.indent).1 hb
    exact ⟨p.indent, slot, by rw [Placed.row, hslot]⟩
  · rintro ⟨n, slot, hrow⟩
    rw [hrow, Line.unbalanced_damaged]

/-- The negative of an operand that is not there, behind an instruction that no code follows. -/
def negated : Function where
  name := none
  type := 0
  locals := []
  body := [.leaf 0 .unreachable, .leaf 1 (.unary .f64 .neg)]

/-- Does the line take the negative of a missing operand? -/
def Line.isDamaged : Line → Bool
  | stmt (.assign [.operand (.slot _)] (.paren (.negate (.operand .missing)))) => true
  | _ => false

theorem Line.eq_damaged {l : Line} (h : l.isDamaged = true) : ∃ slot, l = damaged slot := by
  unfold isDamaged at h
  split at h
  · rename_i slot
    exact ⟨slot, rfl⟩
  · cases h

theorem balanced_lowerFunction_negated :
    let m : Module := { types := [⟨[], [.f64]⟩], fields := [.function negated] }
    ∃ lowered, (lowerFunction ⟨{}, (Registry.ofModule m).2⟩ "f" "f" negated).outcome.1 =
        .ok lowered ∧
      (∃ line ∈ linesOf lowered.text, balanced line = false) ∧
      ∀ line ∈ linesOf lowered.text, balanced line = false ↔
        ∃ n slot, line = indentation n ++ (Line.damaged slot).text := by
  intro m
  have hnames : ∀ name ∈ Instr.bodyUnsupportedNames negated.body, OneLine name := nofun
  have hrun : ((lowerFunction ⟨{}, (Registry.ofModule m).2⟩ "f" "f" negated).outcome.1.toOption.any
      fun lowered => lowered.lines.any fun p => p.line.isDamaged) = true := by
    decide +kernel
  cases hl : (lowerFunction ⟨{}, (Registry.ofModule m).2⟩ "f" "f" negated).outcome.1 with
  | error failure =>
    rw [hl] at hrun
    cases hrun
  | ok lowered =>
    have hall := balanced_lowerFunction m {} hnames hl
    rw [hl] at hrun
    obtain ⟨p, hp, hd⟩ := List.any_eq_true.1 hrun
    obtain ⟨slot, hslot⟩ := Line.eq_damaged hd
    have hline : p.row ∈ linesOf lowered.text := by
      rw [linesOf_lowerFunction (Registry.tidy_ofModule m) hnames hl]
      exact List.mem_map_of_mem (List.mem_append_right _ hp)
    refine ⟨lowered, rfl, ⟨p.row, hline, ?_⟩, hall⟩
    exact (hall _ hline).2 ⟨p.indent, slot, by rw [Placed.row, hslot]⟩

end Moonstack
