import Moonstack.Proofs.Assignment.Domain
import Moonstack.Proofs.Chunk.Comments
import Moonstack.Proofs.Emission.Resuming
import Moonstack.Proofs.Emission.Strategies

/-!
# Declared slots

Every slot in the code of a function is a parameter or declared, and is so once. The declaration
takes the slots from the number of parameters up to the number of slots in the end, so the point is
that no other slot occurs in a line.

That follows from the comparison of the two strategies. The lines of the pooled code are those of the
virtual code under *every* renaming that places the registers in their pooled slots. A slot of no
register could be renamed at will, so there is none (`Registers.Follows.lt_slotCount`). Records of
slots are the exception, as they are not renamed; they take slots of the frame (`Frame.Saves`).
-/

namespace Moonstack

open Registers Moonstack.Frame Emission Emit

section

variable (ρ : Nat → Nat)

theorem Operand.slots_rename (o : Operand) : (o.rename ρ).slots = o.slots.map ρ := by
  cases o <;> rfl

theorem Operand.flatMap_slots_rename (os : List Operand) :
    (os.map (rename ρ)).flatMap slots = (os.flatMap slots).map ρ := by
  rw [List.flatMap_map, List.map_flatMap]
  exact List.flatMap_congr fun o _ => o.slots_rename ρ

theorem Expr.slots_rename (e : Expr) : (e.rename ρ).slots = e.slots.map ρ := by
  rw [slots, slots, rename, operands_subst]
  exact Operand.flatMap_slots_rename ρ e.operands

theorem Expr.allSlots_rename (es : List Expr) :
    allSlots (substAll (fun n => .slot (ρ n)) es) = (allSlots es).map ρ := by
  rw [allSlots, allSlots, allOperands_substAll]
  exact Operand.flatMap_slots_rename ρ (allOperands es)

theorem Stmt.slots_rename {s : Stmt} (h : s.fresh = true) : (s.rename ρ).slots = s.slots.map ρ := by
  cases s with
  | capture => cases h
  | goto => rfl
  | run e => exact e.slots_rename ρ
  | assign targets value =>
    rw [rename, subst, slots, slots, Expr.allSlots_rename, List.map_append]
    exact congrArg _ (value.slots_rename ρ)
  | ret values => exact Operand.flatMap_slots_rename ρ values

theorem Line.slots_rename {l : Line} (h : l.fresh = true) : (l.rename ρ).slots = l.slots.map ρ := by
  cases l with
  | stmt s => exact s.slots_rename ρ h
  | guard e s | arm _ e s =>
    change (e.rename ρ).slots ++ (s.rename ρ).slots = (e.slots ++ s.slots).map ρ
    rw [e.slots_rename, s.slots_rename ρ h, List.map_append]
  | choice e s t =>
    obtain ⟨hs, ht⟩ := (Bool.and_eq_true _ _).mp h
    change (e.rename ρ).slots ++ ((s.rename ρ).slots ++ (t.rename ρ).slots) =
      (e.slots ++ (s.slots ++ t.slots)).map ρ
    rw [e.slots_rename, s.slots_rename ρ hs, t.slots_rename ρ ht, List.map_append, List.map_append]
  | declare slots => exact List.map_eq_flatMap.symm
  | ifThen e | elseIf e => exact e.slots_rename ρ
  | _ => rfl

end

/-- Slots that every function renames alike are slots of registers. -/
theorem Registers.Follows.lt_slotCount {history : List Event} {ms ns : List Nat}
    (h : Follows history List.map ms ns) :
    (∀ m ∈ ms, m < (run .pooled history).slotCount) ∧
      ∀ n ∈ ns, n < (run .virtual history).slotCount := by
  have hplaces := places_slotOf history
  have hregister : ∀ n ∈ ns, ∃ a, (run .pooled history).get? n = some a := by
    intro n hn
    by_contra hnone
    -- without a register, the slot can be put anywhere
    have hmoved : Registers.Places history
        (Function.update (run .pooled history).slotOf n ((run .pooled history).slotOf n + 1)) := by
      intro id a ha
      have hne : id ≠ n := by
        rintro rfl
        exact hnone ⟨a, ha⟩
      rw [Function.update_of_ne hne]
      exact hplaces id a ha
    have hsame := List.map_inj_left.1 ((h _ hplaces).symm.trans (h _ hmoved)) n hn
    simp at hsame
  refine ⟨fun m hm => ?_, fun n hn => ?_⟩
  · rw [h _ hplaces] at hm
    obtain ⟨n, hn, rfl⟩ := List.mem_map.1 hm
    obtain ⟨a, ha⟩ := hregister n hn
    rw [hplaces n a ha]
    exact (sound_run .pooled history).slot_lt ha
  · obtain ⟨a, ha⟩ := hregister n hn
    exact (sound_run .virtual history).slot_lt (get?_virtual ha)

/-- Only slots below a bound occur in the line. -/
def Line.Under (k : Nat) (l : Line) : Prop := ∀ n ∈ l.slots, n < k

/-- What matches a record of slots is one. -/
theorem Line.Matches.record_inv {ρ : Nat → Nat} {s : Line} {place : Expr} {slots : Nat}
    {target : Label} (h : s.Matches ρ (.stmt (.capture place slots target))) :
    ∃ slots', s = .stmt (.capture (place.rename ρ) slots' target) := by
  cases h with
  | renamed h =>
    cases h
    exact ⟨_, rfl⟩
  | record => exact ⟨_, rfl⟩

/-- Lines that match have slots of their runs. -/
theorem Line.under_of_matches {history : List Event} {s t : Line}
    (h : ∀ ρ, Registers.Places history ρ → s.Matches ρ t) {f g : Frame}
    (hf : f.registers = run .pooled history) (hg : g.registers = run .virtual history)
    (hs : f.Saves [s]) (ht : g.Saves [t]) :
    s.Under f.registers.slotCount ∧ t.Under g.registers.slotCount := by
  rw [hf, hg]
  obtain ht | ⟨place', slots', target', rfl, ht, -⟩ := ht t List.mem_cons_self
  · refine Follows.lt_slotCount (fun ρ hρ => ?_ : Follows history List.map s.slots t.slots)
    cases h ρ hρ with
    | renamed hr =>
      cases hr with
      | code => exact t.slots_rename ρ ht
      | remark => rfl
    | record => cases ht
  · obtain hs | ⟨place, slots, target, rfl, hs, -⟩ := hs s List.mem_cons_self
    · obtain ⟨_, rfl⟩ := (h _ (places_slotOf history)).record_inv
      cases hs
    · have hplace : Follows history List.map place.slots place'.slots := by
        intro ρ hρ
        obtain ⟨_, he⟩ := (h ρ hρ).record_inv
        cases he
        exact place'.slots_rename ρ
      obtain ⟨hm, hn⟩ := hplace.lt_slotCount
      rw [hf] at hs
      rw [hg] at ht
      exact ⟨List.forall_mem_append.2 ⟨hm, fun _ h => Nat.lt_of_lt_of_le (List.mem_range.1 h) hs⟩,
        List.forall_mem_append.2 ⟨hn, fun _ h => Nat.lt_of_lt_of_le (List.mem_range.1 h) ht⟩⟩

theorem Emission.Abreast.under {history : List Event} {held : List RegisterId} {blocks : List Block}
    {d d' : Emission} (h : Abreast history held blocks d d') (hs : d.frame.Saves d.code)
    (hs' : d'.frame.Saves d'.code) :
    (∀ l ∈ d.code, l.Under d.frame.registers.slotCount) ∧
      ∀ l ∈ d'.code, l.Under d'.frame.registers.slotCount := by
  have hlength := (h.lines _ (places_slotOf history)).length_eq
  have hone {i : Nat} (hi : i < d.lines.toList.length) (hi' : i < d'.lines.toList.length) :=
    Line.under_of_matches
      (fun ρ hρ => ((List.forall₂_iff_get.1 (h.lines ρ hρ)).2 i hi hi').2)
      h.frames.pooled h.frames.virtual
      (fun _ hl => hs _ (List.mem_singleton.1 hl ▸ List.mem_map_of_mem (List.get_mem _ _)))
      (fun _ hl => hs' _ (List.mem_singleton.1 hl ▸ List.mem_map_of_mem (List.get_mem _ _)))
  constructor
  · intro l hl
    obtain ⟨p, hp, rfl⟩ := List.mem_map.1 hl
    obtain ⟨i, rfl⟩ := List.get_of_mem hp
    exact (hone i.2 (Nat.lt_of_lt_of_eq i.2 hlength)).1
  · intro l hl
    obtain ⟨p, hp, rfl⟩ := List.mem_map.1 hl
    obtain ⟨i, rfl⟩ := List.get_of_mem hp
    exact (hone (Nat.lt_of_lt_of_eq i.2 hlength.symm) i.2).2

/-- A computation that goes abreast under the two strategies, but for the log, leaves lines and a
value with slots of its frame, under either. -/
theorem Emit.under_of_both {α : Type} (slots : α → List Nat) (x : Strategy → Emit α)
    (e : Strategy → Emission)
    (h : Both (x .pooled) (x .virtual) (e .pooled) (e .virtual) fun a b c c' =>
      ∃ history held blocks d d', Abreast history held blocks d d' ∧
        Follows history List.map (slots a) (slots b) ∧
        (∃ log, c = { d with frame := { d.frame with log } }) ∧
        ∃ log, c' = { d' with frame := { d'.frame with log } })
    (hs : ∀ strategy a c, x strategy (e strategy) = .ok a c → c.frame.Saves c.code)
    (strategy : Strategy) {a : α} {c : Emission} (hx : x strategy (e strategy) = .ok a c) :
    (∀ l ∈ c.code, l.Under c.frame.registers.slotCount) ∧
      ∀ n ∈ slots a, n < c.frame.registers.slotCount := by
  unfold Both at h
  split at h
  · rename_i a b c c' hp hv
    obtain ⟨history, _, _, d, d', hd, hab, ⟨log, rfl⟩, log', rfl⟩ := h
    have hsaves := hs .pooled _ _ hp
    have hsaves' := hs .virtual _ _ hv
    have hu := hd.under hsaves hsaves'
    have hn := hab.lt_slotCount
    rw [← hd.frames.pooled, ← hd.frames.virtual] at hn
    cases strategy with
    | pooled =>
      cases hx.symm.trans hp
      exact ⟨hu.1, hn.1⟩
    | virtual =>
      cases hx.symm.trans hv
      exact ⟨hu.2, hn.2⟩
  · rename_i hp hv
    cases strategy with
    | pooled => cases hx.symm.trans hp
    | virtual => cases hx.symm.trans hv
  · exact h.elim

/-- The frame has a number of slots at least. -/
def Rule.roomy (n : Nat) : Rule where
  ok := False
  Keeps f _ := n ≤ f.registers.slotCount
  plain _ h := h
  passed hp _ h := Nat.le_trans h hp.slots
  proper h := h.elim

theorem Rule.wide_roomy (n : Nat) : (Rule.roomy n).Wide := ⟨fun _ h => h, fun _ h => h⟩

section

variable {env : Env} {id name : String}

theorem Rule.saves_nil (f : Frame) : Rule.saves.Holds 0 { frame := f } :=
  ⟨rfl, fun _ h => by cases h⟩

section

variable {function : Function} {signature : Signature} {params : List String} {e : Emission}
  (h : Emit.function env signature.params.length function.body
    (initial env id function signature) = .ok params e)
include h

/-- The code of a function stays below the number of its slots. -/
theorem under_function :
    e.frame.Saves e.code ∧ ∀ l ∈ e.code, l.Under e.frame.registers.slotCount := by
  obtain ⟨history, -, hboth⟩ := both_function env id function signature
  have hsaves (strategy : Strategy) (params : List String) (e : Emission)
      (h : Emit.function (env.under strategy) signature.params.length function.body
        (initial (env.under strategy) id function signature) = .ok params e) :
      e.frame.Saves e.code :=
    (holds_function Rule.full_saves False.elim _ False.elim 0 _ _ _ (Rule.saves_nil _) h).1.keeps
  refine ⟨hsaves env.options.strategy _ _ h, ?_⟩
  refine (under_of_both (fun _ => [])
    (fun strategy => Emit.function (env.under strategy) signature.params.length function.body)
    (fun strategy => initial (env.under strategy) id function signature)
    (hboth.mono fun params params' c c' hc => ?_) hsaves env.options.strategy h).1
  obtain ⟨-, -, d, d', hd, rfl, rfl⟩ := hc
  obtain ⟨log, hlog⟩ := d.frame.reported_eq
  obtain ⟨log', hlog'⟩ := d'.frame.reported_eq
  exact ⟨history, [], [], d, d', hd, fun _ _ => rfl, ⟨log, hlog ▸ rfl⟩, log', hlog' ▸ rfl⟩

/-- The parameters take the first slots. -/
theorem params_function : params = (List.range signature.params.length).map slotName ∧
    signature.params.length ≤ e.frame.registers.slotCount := by
  obtain ⟨hb, hnames⟩ := binds_params env id function signature
  obtain ⟨_, e₁, h₁, hrest⟩ := ok_of_bind h
  rw [turns_params] at h₁
  cases h₁
  obtain ⟨_, e₂, h₂, hrest⟩ := ok_of_bind hrest
  obtain ⟨_, e₃, h₃, hrest⟩ := ok_of_bind hrest
  have hbody := (holds_body (Rule.wide_roomy signature.params.length).full False.elim function.body 0
    False.elim _ () e₂
    ⟨rfl, Nat.le_trans (Nat.le_of_eq hb.count.symm) (moved_accessedAll _ _).2.2.slots⟩ h₂).1
  have hend := (holds_finishFunction (d := (Rule.roomy _).discipline) e₂ () e₃ hbody h₃).1.keeps
  cases hrest
  refine ⟨hnames, ?_⟩
  change signature.params.length ≤ e₃.frame.reported.registers.slotCount
  obtain ⟨log, hlog⟩ := e₃.frame.reported_eq
  rw [hlog]
  exact hend

end

/-- The code of an initializer stays below the number of its slots. -/
theorem under_initializer {code : List Instr} {value : Operand} {e : Emission}
    (h : initializer env code { frame := startFrame env id none [] code } = .ok value e) :
    e.frame.paramCount = 0 ∧ e.frame.Saves e.code ∧
      (∀ l ∈ e.code, l.Under e.frame.registers.slotCount) ∧
      ∀ n ∈ value.slots, n < e.frame.registers.slotCount := by
  have hsaves (strategy : Strategy) (value : Operand) (e : Emission)
      (h : initializer (env.under strategy) code
        { frame := startFrame (env.under strategy) id none [] code } = .ok value e) :
      e.frame.Saves e.code :=
    (holds_initializer Rule.full_saves False.elim 0 False.elim _ _ _ (Rule.saves_nil _) h).1.keeps
  refine ⟨?_, hsaves env.options.strategy _ _ h, ?_⟩
  · obtain ⟨_, e₁, h₁, h⟩ := ok_of_bind h
    obtain ⟨_, e₂, h₂, h⟩ := ok_of_bind h
    rw [turns_pop] at h₂
    cases h₂
    cases h
    change (recordLocals e₁.frame.popped).paramCount = 0
    obtain ⟨log, hlog⟩ := e₁.frame.popped.recordLocals_eq
    rw [hlog]
    exact (Moved.popped _).paramCount.trans (paramCount_body h₁)
  · have hstart : Abreast [] [] []
        { frame := startFrame (env.under .pooled) id none [] code }
        { frame := startFrame (env.under .virtual) id none [] code } :=
      ⟨.intro (startFrame env id none [] code) fun _ _ => .nil, owned_initializer _ id code, rfl, rfl,
        fun _ _ => .nil⟩
    have hop (offset : Nat) (o : Op) : Emit.op (env.under .pooled) offset o =
        Emit.op (env.under .virtual) offset o := by
      rw [Emit.op_under, Emit.op_under]
    obtain ⟨_, -, -, hbody⟩ := met_body hop code hstart
    refine under_of_both Operand.slots (fun strategy => initializer (env.under strategy) code)
      (fun strategy => { frame := startFrame (env.under strategy) id none [] code })
      ?_ hsaves env.options.strategy h
    refine hbody.bind fun _ _ d d' hd => Both.bind (goes_pop hd) fun v w c c' hc => ?_
    obtain ⟨later, -, hc, hv⟩ := hc
    obtain ⟨log, hlog⟩ := c.frame.recordLocals_eq
    obtain ⟨log', hlog'⟩ := c'.frame.recordLocals_eq
    exact .of_ok rfl rfl ⟨later, [], [], c, c', hc, fun ρ hρ => hv ρ hρ ▸ w.slots_rename ρ,
      ⟨log, hlog ▸ rfl⟩, log', hlog' ▸ rfl⟩

end

/-- The slots below `n` are the parameters, and those from `n` up to `k` are declared. The declaration
stands in front and is the only one, and no other slot occurs in a line or in the value. -/
structure Lowered.Declares (f : Lowered) (n k : Nat) : Prop where
  le : n ≤ k
  params : f.params = (List.range n).map slotName
  declared : f.declared = List.range' n (k - n)
  once : (f.params ++ f.declared.map slotName).Nodup
  front : ∃ rest, f.text = joinLines ((f.declaration ++ rest).map Placed.row) ∧
    f.header ++ f.lines = f.declaration ++ rest ∧ ∀ p ∈ rest, ∀ slots, p.line ≠ .declare slots
  slots : ∀ p ∈ f.header ++ f.lines, ∀ m ∈ p.line.slots, slotName m ∈ f.params ∨ m ∈ f.declared
  value : ∀ o ∈ f.value, ∀ m ∈ o.slots, slotName m ∈ f.params ∨ m ∈ f.declared

/-- The head that resumes a function restores slots of the frame and declares none. -/
theorem under_resumeHeader (slotCount : Nat) (sites : List ResumeSite) :
    ∀ p ∈ resumeHeader slotCount sites, p.line.Under slotCount ∧ p.line.fresh = true := by
  intro p hp
  simp only [resumeHeader, List.mem_append, List.mem_cons, List.not_mem_nil, or_false,
    List.mem_map, List.mem_range] at hp
  obtain ((rfl | ⟨n, hn, rfl⟩) | ⟨⟨site, _⟩, -, rfl⟩) | rfl | rfl := hp
  · exact ⟨by simp [Line.Under, Line.slots, Expr.slots, Expr.operands], rfl⟩
  · exact ⟨by simpa [Line.Under, Line.slots, Stmt.slots, Expr.slot, Expr.slots, Expr.operands,
      Expr.allSlots, Expr.allOperands, Operand.slots] using hn, rfl⟩
  · cases site.inLoop <;>
      simp [Line.Under, Line.slots, Line.fresh, Stmt.slots, Stmt.fresh, Expr.error, Expr.slots,
        Expr.operands, Expr.allOperands]
  all_goals exact ⟨List.forall_mem_nil _, rfl⟩

section

variable {f : Lowered} {e : Emission} {n : Nat}

theorem Lowered.declares (hheader : f.header = Moonstack.header e.frame)
    (hlines : f.lines = e.lines.toList) (hdeclared : f.declared = declaredSlots e.frame)
    (hparams : f.params = (List.range n).map slotName) (hn : e.frame.paramCount = n)
    (hle : n ≤ e.frame.registers.slotCount) (hs : e.frame.Saves e.code)
    (hu : ∀ l ∈ e.code, l.Under e.frame.registers.slotCount)
    (hv : ∀ o ∈ f.value, ∀ m ∈ o.slots, m < e.frame.registers.slotCount) :
    f.Declares n e.frame.registers.slotCount := by
  have hrange : f.declared = List.range' n (e.frame.registers.slotCount - n) := by
    rw [hdeclared, declaredSlots, hn, List.range_eq_range', List.drop_range', Nat.zero_add,
      Nat.mul_one]
  have hbound {m : Nat} (hm : m < e.frame.registers.slotCount) :
      slotName m ∈ f.params ∨ m ∈ f.declared := by
    rw [hparams, hrange]
    by_cases hmn : m < n
    · exact .inl (List.mem_map_of_mem (List.mem_range.2 hmn))
    · exact .inr (List.mem_range'_1.2 ⟨by omega, by omega⟩)
  -- behind the declaration stand the head that resumes the function and the lines of the body
  obtain ⟨rest, hall, hrest⟩ : ∃ rest, f.header ++ f.lines = f.declaration ++ rest ∧ ∀ p ∈ rest,
      p.line.Under e.frame.registers.slotCount ∧ ∀ slots, p.line ≠ .declare slots := by
    rw [hheader, hlines, declaration, hdeclared, Moonstack.header, List.append_assoc]
    refine ⟨_, rfl, fun p hp => ?_⟩
    obtain hp | hp := List.mem_append.1 hp
    · obtain ⟨hunder, hfresh⟩ := under_resumeHeader _ _ p (List.mem_ite_nil_left.1 hp).2
      refine ⟨hunder, fun slots hd => ?_⟩
      rw [hd] at hfresh
      cases hfresh
    · have hmem : p.line ∈ e.code := List.mem_map_of_mem hp
      refine ⟨hu _ hmem, fun slots hd => ?_⟩
      obtain hl | ⟨_, _, _, hl, -⟩ := hs _ hmem <;> rw [hd] at hl <;> cases hl
  refine ⟨hle, hparams, hrange, ?_, ⟨rest, by rw [text_eq, hall], hall, fun p hp => (hrest p hp).2⟩,
    fun p hp m hm => ?_, fun o ho m hm => hbound (hv o ho m hm)⟩
  · have hslots := List.range'_append_1 (s := 0) (m := n) (n := e.frame.registers.slotCount - n)
    rw [Nat.zero_add, ← List.range_eq_range'] at hslots
    rw [hparams, hrange, ← List.map_append, hslots]
    exact List.Nodup.map slotName_injective List.nodup_range'
  · rw [hall] at hp
    obtain hp | hp := List.mem_append.1 hp
    · rw [List.mem_singleton.1 (List.mem_ite_nil_left.1 hp).2] at hm
      exact .inr hm
    · exact hbound ((hrest p hp).1 m hm)

end

/-- **Every slot is declared once.** The parameters of a function are its first slots, and the slots
from there up to the last one it takes are declared in front of the body, which has no others. So it
is with an initializer, which has no parameters, and with its value. A stub has the parameters of the
function in whose place it stands. -/
theorem declares_lowered (env : Env) (id name : String) (function : Function) (code : List Instr) :
    (∀ lowered, (lowerFunction env id name function).outcome.1 = .ok lowered →
      ∃ signature e, env.registry.types[function.type]? = some signature ∧
        Emit.function env signature.params.length function.body
          (initial env id function signature) = .ok lowered.params e ∧
        lowered.Declares signature.params.length e.frame.registers.slotCount) ∧
    (∀ lowered, (lowerInitializer env id code).outcome.1 = .ok lowered →
      ∃ value e, lowered.value = some value ∧
        initializer env code { frame := startFrame env id none [] code } = .ok value e ∧
        lowered.Declares 0 e.frame.registers.slotCount) ∧
    ∀ m index entry signature, env.registry = (Registry.ofModule m).2 →
      (function, index) ∈ m.indexed → env.registry.function? index = some entry →
      env.registry.types[function.type]? = some signature →
      ∀ statement, entry.stub statement = .define {
        name := entry.id
        params := (List.range signature.params.length).map slotName
        body := .stub statement } := by
  refine ⟨fun lowered h => ?_, fun lowered h => ?_, ?_⟩
  · obtain ⟨signature, params, e, hsignature, he, rfl⟩ := emitted_lowerFunction h
    obtain ⟨hparams, hle⟩ := params_function he
    obtain ⟨hs, hu⟩ := under_function he
    exact ⟨signature, e, hsignature, he,
      Lowered.declares rfl rfl rfl hparams (paramCount_function he) hle hs hu nofun⟩
  · obtain ⟨value, e, he, hheader, hlines, hvalue, hparams, hdeclared⟩ := emitted_lowerInitializer h
    obtain ⟨hn, hs, hu, hv⟩ := under_initializer he
    refine ⟨value, e, hvalue, he,
      Lowered.declares hheader hlines hdeclared hparams hn (Nat.zero_le _) hs hu fun o ho => ?_⟩
    cases hvalue.symm.trans ho
    exact hv
  · intro m index entry signature hr hp hentry hs statement
    have hm := Registry.describes_ofModule m
    obtain ⟨entry', hentry', -, hsignature⟩ := hm.defined _ hp
    rw [hr] at hentry hs
    cases hentry.symm.trans hentry'
    rw [FunctionEntry.stub, FunctionEntry.stubParams, hsignature, ← hm.types, hs]
    rfl

/-- A function that copies its parameter into a local. -/
def copying : Function := ⟨none, 0, [.i32], [.leaf 0 (.localGet 0), .leaf 2 (.localSet 1)]⟩

theorem declares_lowered_copying :
    let m : Module := ⟨none, [⟨[.i32], []⟩], [.function copying]⟩
    ∃ f g entry j k, (lowerFunction (m.env {}) "f" "f" copying).outcome.1 = .ok f ∧ f.Declares 1 j ∧
      (lowerInitializer (m.env {}) "f" [.leaf 0 (.const (.i32 7))]).outcome.1 = .ok g ∧
      g.Declares 0 k ∧ (m.env {}).registry.function? 0 = some entry ∧
      entry.stub "return" = .define ⟨entry.id, [slotName 0], .stub "return"⟩ := by
  intro m
  have hs : (m.env {}).registry.types[copying.type]? = some ⟨[.i32], []⟩ := rfl
  have ho : (m.env {}).options.oversized copying.body = false := by decide
  have ho' : (m.env {}).options.oversized [.leaf 0 (.const (.i32 7))] = false := by decide
  obtain ⟨_, _, _, f, -, -, -, -, -, -, hf⟩ := yields_lowerFunction "f" "f" hs ho
  obtain ⟨g, hg⟩ := yields_lowerInitializer "f" ho'
  obtain ⟨hfunction, hinitial, hstub⟩ :=
    declares_lowered (m.env {}) "f" "f" copying [.leaf 0 (.const (.i32 7))]
  obtain ⟨_, e, hs', -, hdeclares⟩ := hfunction f hf.outcome
  cases hs.symm.trans hs'
  obtain ⟨_, e', -, -, hdeclares'⟩ := hinitial g hg.outcome
  have hp : (copying, 0) ∈ m.indexed := List.mem_singleton_self _
  obtain ⟨entry, hentry, -⟩ := (Registry.describes_ofModule m).defined _ hp
  exact ⟨f, g, entry, _, _, hf.outcome, hdeclares, hg.outcome, hdeclares', hentry,
    hstub m 0 entry _ rfl hp hentry hs "return"⟩

end Moonstack
