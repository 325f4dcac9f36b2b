import Moonstack.Proofs.Lifetimes.Paths
import Moonstack.Proofs.Semantics.Templates

/-!
# What an instruction without a body does

An instruction that neither branches nor asks for the register of a local goes through the same
steps, whether it can be written or not (`Frame.Serves`): it makes registers for its results, takes
its operands off the stack, writes code that reads these operands and assigns these results
(`Confined`), and pushes the results, or literals in their place.

`Emit.effect_op` says what all instructions without a body do: they serve, they jump, they read a
local or they write one (`Emit.Effect`).
-/

namespace Moonstack

/-! ## Slots in lines -/

namespace Line

def assigns : Line → List Nat
  | stmt s | guard _ s | arm _ _ s => s.assigns
  | choice _ s t => s.assigns ++ t.assigns
  | _ => []

/-- The operands that a line reads. What a record of all slots holds is not counted. -/
def operands : Line → List Operand
  | stmt s => s.operands
  | guard condition s | arm _ condition s => condition.operands ++ s.operands
  | choice condition s t => condition.operands ++ (s.operands ++ t.operands)
  | ifThen condition | elseIf condition => condition.operands
  | _ => []

/-- The line reads and assigns nothing. -/
def Inert (line : Line) : Prop := line.assigns = [] ∧ line.operands = []

end Line

/-- The lines assign no other slots than `ds`. They read the operands `xs`, and slots that they
assign themselves. -/
structure Confined (xs : List Operand) (ds : List Nat) (code : List Line) : Prop where
  assigns : ∀ line ∈ code, ∀ n ∈ line.assigns, n ∈ ds
  reads : ∀ line ∈ code, ∀ n, .slot n ∈ line.operands →
    .slot n ∈ xs ∨ ∃ line' ∈ code, n ∈ line'.assigns

namespace Confined

variable {xs : List Operand} {ds : List Nat} {code : List Line}

theorem nil : Confined xs ds [] :=
  ⟨fun _ hl => absurd hl List.not_mem_nil, fun _ hl => absurd hl List.not_mem_nil⟩

theorem append {more : List Line} (h : Confined xs ds code) (h' : Confined xs ds more) :
    Confined xs ds (code ++ more) where
  assigns := List.forall_mem_append.2 ⟨h.assigns, h'.assigns⟩
  reads := by
    refine List.forall_mem_append.2 ⟨fun line hl n hn => ?_, fun line hl n hn => ?_⟩
    · exact (h.reads line hl n hn).imp_right fun ⟨l, hm, ha⟩ => ⟨l, List.mem_append_left _ hm, ha⟩
    · exact (h'.reads line hl n hn).imp_right fun ⟨l, hm, ha⟩ => ⟨l, List.mem_append_right _ hm, ha⟩

/-- Lines that read nothing but the operands. -/
theorem of_operands (ha : ∀ line ∈ code, ∀ n ∈ line.assigns, n ∈ ds)
    (hr : ∀ line ∈ code, ∀ n, .slot n ∈ line.operands → .slot n ∈ xs) : Confined xs ds code :=
  ⟨ha, fun line hl n hn => .inl (hr line hl n hn)⟩

theorem of_inert (h : ∀ line ∈ code, line.Inert) : Confined xs ds code :=
  .of_operands (fun line hl n hn => by rw [(h line hl).1] at hn; cases hn)
    fun line hl n hn => by rw [(h line hl).2] at hn; cases hn

/-- One line that assigns nothing. -/
theorem of_reads {line : Line} (ha : line.assigns = [])
    (hr : ∀ n, .slot n ∈ line.operands → .slot n ∈ xs) : Confined xs ds [line] :=
  .of_operands (List.forall_mem_singleton.2 (by simp [ha])) (List.forall_mem_singleton.2 hr)

/-- One assignment of the results. -/
theorem assign {e : Expr} (he : ∀ n, .slot n ∈ e.operands → .slot n ∈ xs) :
    Confined xs ds [.stmt (.assign (ds.map .slot) e)] := by
  refine .of_operands (List.forall_mem_singleton.2 fun n hn => ?_)
    (List.forall_mem_singleton.2 fun n hn => ?_)
  · rwa [Line.assigns, Stmt.assigns_slots] at hn
  · rw [Line.operands, Plain.operands_assign_slots] at hn
    exact he n hn

end Confined

/-- The code of the instruction reads its operands and assigns its results. -/
def Plain.Confines (p : Plain) : Prop :=
  ∀ {xs : List Operand} {ds : List Nat}, xs.length = p.pops → ds.length = p.pushes →
    Confined xs ds (p.code xs ds)

/-! ### Templates -/

/-- The slots in a statement of a template. -/
theorem Stmt.mem_of_allFit {k n : Nat} {S : List Nat} {code : List Stmt}
    (h : allFit k n S code = true) {s : Stmt} (hs : s ∈ code) :
    s.acts = true ∧ (∀ m ∈ s.changes, k ≤ m ∧ m < n) ∧
      ∀ o ∈ s.operands, ∃ m, o = .slot m ∧ (m ∈ S ∨ ∃ t ∈ code, m ∈ t.assigns) := by
  induction code generalizing S with
  | nil => cases hs
  | cons t rest ih =>
    obtain ⟨hfits, hrest⟩ := Bool.and_eq_true_iff.1 h
    simp only [fits, Bool.and_eq_true, List.all_eq_true, decide_eq_true_eq] at hfits
    obtain ⟨⟨hacts, hreads⟩, hchanges⟩ := hfits
    have hslot : ∀ o ∈ t.operands, ∃ m, o = .slot m ∧ m ∈ S := by
      intro o ho
      have hany := hreads o ho
      cases o with
      | slot m => exact ⟨m, rfl, by simpa [Operand.slots] using hany⟩
      | literal | missing => cases hany
    rcases List.mem_cons.1 hs with rfl | hs
    · refine ⟨hacts, hchanges, fun o ho => ?_⟩
      obtain ⟨m, rfl, hm⟩ := hslot o ho
      exact ⟨m, rfl, .inl hm⟩
    · obtain ⟨hacts', hchanges', hreads'⟩ := ih hrest hs
      refine ⟨hacts', hchanges', fun o ho => ?_⟩
      obtain ⟨m, rfl, hm⟩ := hreads' o ho
      refine ⟨m, rfl, ?_⟩
      rcases hm with hm | ⟨u, hu, hm⟩
      · rcases List.mem_append.1 hm with hm | hm
        · exact .inl hm
        · rcases assigns_of_changes hm with hm | hm
          · exact .inr ⟨t, List.mem_cons_self, hm⟩
          · obtain ⟨m', he, hm'⟩ := hslot _ hm
            exact .inl (Operand.slot.inj he ▸ hm')
      · exact .inr ⟨u, List.mem_cons_of_mem _ hu, hm⟩

section

variable {xs : List Operand} {ds : List Nat}

/-- The code of a template reads operands and assigns results. -/
theorem Plain.Realizes.confines {p : Plain} {t : Template} (h : p.Realizes t) : p.Confines := by
  intro xs ds hxs hds
  rw [h.pops] at hxs
  rw [h.pushes] at hds
  have hfits := (Bool.and_eq_true_iff.1 h.fits).2
  rw [← hxs, ← hds] at hfits
  have hplace {s : Stmt} (hs : s ∈ t.code) : ∀ m ∈ s.changes,
      placing xs ds m = .slot ((ds[m - xs.length]?).getD 0) := fun m hm => by
    obtain ⟨hk, hn⟩ := (Stmt.mem_of_allFit hfits hs).2.1 m hm
    exact placing_of_le hk hn
  have hline {line : Line} (hl : line ∈ p.code xs ds) :
      ∃ s ∈ t.code, line = .stmt (s.subst (placing xs ds)) := by
    rw [h.code hxs hds, List.map_map] at hl
    obtain ⟨s, hs, rfl⟩ := List.mem_map.1 hl
    exact ⟨s, hs, rfl⟩
  refine ⟨fun line hl n hn => ?_, fun line hl n hn => ?_⟩
  · obtain ⟨s, hs, rfl⟩ := hline hl
    rw [Line.assigns, Stmt.assigns_subst (hplace hs)] at hn
    obtain ⟨m, hm, rfl⟩ := List.mem_map.1 hn
    obtain ⟨hk, hlt⟩ := (Stmt.mem_of_allFit hfits hs).2.1 m (Stmt.assigns_subset_changes hm)
    rw [List.getElem?_eq_getElem (by omega)]
    exact List.getElem_mem _
  · obtain ⟨s, hs, rfl⟩ := hline hl
    obtain ⟨hacts, -, hreads⟩ := Stmt.mem_of_allFit hfits hs
    rw [Line.operands, Stmt.operands_subst hacts (hplace hs)] at hn
    obtain ⟨o, ho, hn⟩ := List.mem_map.1 hn
    obtain ⟨m, rfl, hm⟩ := hreads o ho
    have hn : placing xs ds m = .slot n := hn
    rcases hm with hm | ⟨u, hu, hm⟩
    · rw [placing_of_lt (List.mem_range.1 hm)] at hn
      exact .inl (hn ▸ List.getElem_mem _)
    · refine .inr ⟨.stmt (u.subst (placing xs ds)), ?_, ?_⟩
      · rw [h.code hxs hds]
        exact List.mem_map_of_mem (List.mem_map_of_mem hu)
      · rw [hplace hu m (Stmt.assigns_subset_changes hm)] at hn
        rw [Line.assigns, Stmt.assigns_subst (hplace hu), ← Operand.slot.inj hn]
        exact List.mem_map_of_mem hm

end

theorem Plain.confines_select : select.Confines := fun {xs ds} hxs hds => by
  obtain ⟨x, y, c, rfl⟩ := List.length_eq_three.1 hxs
  obtain ⟨d, rfl⟩ := List.length_eq_one_iff.1 hds
  refine .of_operands (List.forall_mem_singleton.2 fun n hn => ?_)
    (List.forall_mem_singleton.2 fun n hn => ?_)
  · simpa [Line.assigns, Stmt.assigns, Expr.slot, Expr.target] using hn
  · rcases List.mem_cons.1 hn with rfl | hn
    · simp
    · rcases List.mem_cons.1 hn with rfl | hn
      · simp
      · obtain rfl := List.mem_singleton.1 hn
        simp

/-- **The code of a plain instruction** reads its operands and assigns its results. -/
theorem Op.confines_plain {env : Env} {o : Op} {p : Plain} (hp : o.plain env = some p) :
    p.Confines := by
  obtain ⟨pops, rfl⟩ | rfl | ⟨t, ht⟩ := plain_cases hp
  · exact fun _ _ => .nil
  · exact Plain.confines_select
  · exact ht.confines

/-! ## Frames -/

namespace Frame

/-- `g` is `f` with other warnings and other places to resume at. -/
def Aside (f g : Frame) : Prop := ∃ warnings log sites, g = { f with warnings, log, sites }

namespace Aside

variable {f g h : Frame}

theorem of_quiet (hq : Quiet f g) : Aside f g := by
  obtain ⟨w, l, rfl⟩ := hq
  exact ⟨w, l, f.sites, rfl⟩

theorem refl (f : Frame) : Aside f f := of_quiet (.refl f)

theorem pushRegister (ha : Aside f g) (id : RegisterId) :
    Aside (f.pushRegister id) (g.pushRegister id) := by
  obtain ⟨w, l, s, rfl⟩ := ha
  refine ⟨w, l, s, ?_⟩
  simp only [Frame.pushRegister, noteIf_eq]
  rfl

theorem pushLiteral (ha : Aside f g) (v : Literal) : Aside (f.pushLiteral v) (g.pushLiteral v) := by
  obtain ⟨w, l, s, rfl⟩ := ha
  refine ⟨w, l, s, ?_⟩
  simp only [Frame.pushLiteral, noteIf_eq]

theorem foldl {ι : Type} {u : Frame → ι → Frame} (ha : Aside f g) (items : List ι)
    (hu : ∀ {f g}, Aside f g → ∀ i, Aside (u f i) (u g i)) :
    Aside (items.foldl u f) (items.foldl u g) := by
  induction items generalizing f g with
  | nil => exact ha
  | cons i rest ih => exact ih (hu ha i)

end Aside

/-- The code that a plain instruction writes from a frame. -/
theorem confined_plainCode {p : Plain} (h : p.Confines) (f : Frame) :
    Confined (f.arguments p) ((f.results p).map (f.consumed p).registers.slotOf) (f.plainCode p) :=
  h (length_tops _ _) ((List.length_map _).trans (length_temporaries f p.pushes))

/-- The instruction makes registers, takes operands, writes code for them and pushes what it has
made, like the plain instruction `p`, and behind that literals. It may warn, and record a place to
resume at. -/
inductive Serves (f : Frame) : List Line → Frame → Prop where
  | intro {f₁ g : Frame} (p : Plain) (literals : List Literal) :
    Quiet f f₁ →
    Confined (f₁.arguments p) ((f₁.results p).map (f₁.consumed p).registers.slotOf)
      (f₁.plainCode p) →
    Aside (literals.foldl pushLiteral (f₁.performed p)) g →
    Serves f (f₁.plainCode p) g

/-- A slot of a block to which a branch of one of the given depths leads. -/
def Aims (f : Frame) (depths : List Nat) (n : Nat) : Prop :=
  ∃ depth ∈ depths, ∃ target id, f.blocks[depth]? = some target ∧
    target.branchRegister = some id ∧ n = f.registers.slotOf id

end Frame

/-- The depths of the blocks to which an instruction branches. -/
def Op.depths : Op → List Nat
  | br depth | brIf depth => [depth]
  | brTable targets fallback => targets ++ [fallback]
  | _ => []

/-- Does the instruction leave its place in the code? -/
def Op.departs : Op → Bool
  | br _ | brIf _ | brTable _ _ | ret => true
  | _ => false

theorem Op.assigns_of_departs {o : Op} (h : o.departs = true) : o.assigns = none := by
  cases o <;> first | rfl | cases h

namespace Frame

/-- The lines assign only slots of blocks to which a branch leads. -/
def AllAim (f : Frame) (depths : List Nat) (code : List Line) : Prop :=
  ∀ line ∈ code, ∀ n ∈ line.assigns, f.Aims depths n

theorem aims_of_frames {f : Frame} {depths : List Nat} (l : Line) (hl : l.frames = true) :
    ∀ n ∈ l.assigns, f.Aims depths n := by
  cases l <;> first | simp [Line.assigns]; done | cases hl

theorem allAim_branchCode (f : Frame) {depths : List Nat} {depth : Nat} (hd : depth ∈ depths) :
    f.AllAim depths (f.branchCode depth) := by
  intro line hl n hn
  cases branchLine_of_mem hl with
  | copy ht hr => exact ⟨depth, hd, _, _, ht, hr, List.mem_singleton.1 hn⟩
  | jump | ret | warned | error => cases hn

end Frame

/-! ## Instructions -/

namespace Emit

open Moonstack.Frame

/-- What an instruction without a body does. -/
inductive Effect (o : Op) (f : Frame) : List Line → Frame → Prop where
  | serves {code : List Line} {g : Frame} : o.departs = false → o.mentions = none →
    Serves f code g → Effect o f code g
  | misses {code : List Line} {g : Frame} : o.departs = false → (∀ line ∈ code, line.Inert) →
    Serves f code g → Effect o f code g
  | jumps {code : List Line} {g h : Frame} : o.departs = true → h = f ∨ h = f.popped → Quiet h g →
    h.AllAim o.depths code → Effect o f code g
  | fetches {l : Nat} : o = .localGet l → l < f.localTypes.length → Effect o f [] (fetched f l)
  | stores {l : Nat} (keep : Bool) : o.assigns = some l → l < f.localTypes.length →
    Effect o f (storeCode f l) (stored f l keep)

section

variable {env : Env} {f g h : Frame} {held : List RegisterId} {code : List Line} {x : Emit Unit}

/-- The computation serves. -/
def Served (x : Emit Unit) (f : Frame) : Prop := ∃ g code, Writes x f () g code ∧ Serves f code g

theorem inert_warned (w : Warning) : (warned w).Inert := ⟨rfl, rfl⟩

theorem forall_inert_one (w : Warning) : ∀ line ∈ [warned w], line.Inert :=
  List.forall_mem_singleton.2 (inert_warned w)

theorem inert_warnings (warnings : List Warning) : ∀ line ∈ warnings.map warned, line.Inert := by
  simp [inert_warned]

/-- An instruction that makes no register and writes lines that read nothing. -/
theorem serves_mute {f₁ : Frame} (pops : Nat) (literals : List Literal)
    (hc : ∀ line ∈ code, line.Inert) (hq : Quiet f f₁)
    (ha : Aside (literals.foldl pushLiteral (f₁.poppedMany pops)) g) : Serves f code g :=
  .intro ⟨pops, 0, fun _ _ => code⟩ literals hq (.of_inert hc) ha

/-! ### Tasks -/

theorem quiet_warnAll (f : Frame) (warnings : List Warning) : Quiet f (f.warnAll warnings) := by
  induction warnings generalizing f with
  | nil => exact .refl f
  | cons w rest ih => exact .trans (.warn f _) (ih _)

/-- A task with its warnings as a plain instruction. -/
def whole (t : Task) : Plain :=
  ⟨t.pops, t.pushes, fun xs ds => t.notices.map warned ++ (t.warnings.map warned ++ t.code xs ds)⟩

theorem served_perform {t : Task} (h : t.toPlain.Confines) (f : Frame) : Served (perform t) f := by
  refine ⟨_, _, writes_perform t f, .intro (whole t) t.literals (quiet_warnAll f t.notices) ?_ ?_⟩
  · exact (Confined.of_inert (inert_warnings _)).append
      ((Confined.of_inert (inert_warnings _)).append (confined_plainCode h _))
  · exact ((Aside.of_quiet (quiet_warnAll _ _)).foldl _ Aside.pushRegister).foldl _
      Aside.pushLiteral

/-! ### Locals and globals that do not exist -/

theorem misses_localGet {index : Nat} (h : f.localTypes.length ≤ index) :
    ∃ g code, Writes (localGet index) f () g code ∧ (∀ line ∈ code, line.Inert) ∧
      Serves f code g := by
  have hw : Writes (localGet index) f ()
      ((f.warn (Warning.readOfUnknownLocal index).message).pushLiteral .nil)
      ([warned (.readOfUnknownLocal index)] ++ []) := by
    refine (writes_frame f).silent ?_
    rw [if_pos h]
    exact (writes_warn _ f).bind (writes_change _ _)
  exact ⟨_, _, hw, forall_inert_one _, serves_mute 0 [.nil] (forall_inert_one _) (.refl f)
    (Aside.pushLiteral (.of_quiet (.warn f _)) _)⟩

theorem misses_localSet {index : Nat} (h : f.localTypes.length ≤ index) (keep : Bool) :
    ∃ g code, Writes (localSet index keep) f () g code ∧ (∀ line ∈ code, line.Inert) ∧
      Serves f code g := by
  have hw : Writes (localSet index keep) f ()
      ((if keep then [Literal.nil] else []).foldl pushLiteral
        (f.warn (Warning.writeToUnknownLocal index).message).popped)
      ([warned (.writeToUnknownLocal index)] ++ []) := by
    refine (writes_frame f).silent ?_
    rw [if_pos h]
    refine (writes_warn _ f).bind ((writes_pop _).silent ?_)
    cases keep with
    | true =>
      simp only [if_true]
      exact writes_change _ _
    | false => exact .pure _ _
  exact ⟨_, _, hw, forall_inert_one _, serves_mute 1 _ (forall_inert_one _) (.warn f _) (.refl _)⟩

/-! ### Places to resume at -/

/-- A place to resume at as a plain instruction. -/
def saver (f : Frame) (handle : String) (offset : Nat) : Plain :=
  ⟨1, 1, fun xs ds =>
    [.stmt (.capture (jumpPlace handle ((xs[0]?).getD .missing)) f.saving.registers.slotCount
      (.resume offset))] ++
    ([.label (.resume offset)] ++
    ([.stmt (.assign (ds.map Expr.slot) (resumedValue (.resume offset)))] ++
      if f.resumed.inLoop then [warned (.resumeInLoop offset)] else []))⟩

theorem served_savePlace (handle : String) (offset : Nat) (f : Frame) :
    Served (savePlace handle offset) f := by
  have hserves : Serves f (f.plainCode (saver f handle offset)) (f.saved offset) := by
    refine .intro _ [] (.refl f) ?_ ?_
    · refine Confined.append (.of_reads rfl fun n hn => hn) (Confined.append (.of_inert ?_)
        ((Confined.assign ?_).append (.of_inert ?_)))
      · simp [Line.Inert, Line.assigns, Line.operands]
      · simp [resumedValue, Expr.operands]
      · split
        · exact forall_inert_one _
        · simp
    · unfold saved
      cases f.resumed.inLoop <;> exact ⟨_, _, _, rfl⟩
  exact ⟨_, _, writes_savePlace handle offset f, hserves⟩

/-! ### The code of tasks -/

theorem mem_of_getD {xs : List Operand} {i n : Nat} (h : (xs[i]?).getD .missing = .slot n) :
    .slot n ∈ xs := by
  cases hx : xs[i]? with
  | none =>
    rw [hx] at h
    cases h
  | some x =>
    rw [hx] at h
    exact h ▸ List.mem_of_getElem? hx

theorem confined_jumpCode (handle : String) (xs : List Operand) (ds : List Nat) :
    Confined xs ds (jumpCode handle xs) := by
  refine @Confined.append _ _ [_] [_] (.of_reads rfl fun n hn => ?_) (.of_reads rfl fun n hn => ?_)
  · rcases List.mem_append.1 hn with hn | hn
    · exact mem_of_getD (List.mem_singleton.1 hn).symm
    · simp only [Expr.operands, List.append_nil, List.mem_append, List.mem_singleton, or_self] at hn
      exact mem_of_getD hn.symm
  · exact mem_of_getD (List.mem_singleton.1 hn).symm

theorem confines_odd {p : Plain} (h : p.Odd env) : p.Confines := by
  cases h with
  | halts pops pushes messages =>
    refine fun _ _ => .of_inert fun line hl => ?_
    obtain ⟨message, -, rfl⟩ := List.mem_map.1 hl
    exact ⟨rfl, rfl⟩
  | stopped pops message =>
    exact fun _ _ => .assign (by simp [Expr.error, Expr.operands, Expr.allOperands])
  | jumps pops hm => exact fun _ _ => confined_jumpCode _ _ _
  | invoke signature message =>
    have hr : (Plain.invoke signature 1 fun _ => .error message).Realizes
        (.invoke signature 1 (.error message)) :=
      Plain.realizes_invoke rfl (Plain.natural_invoke fun _ _ => rfl) rfl
    exact fun _ _ hxs hds => hr.confines hxs hds

/-! ### All instructions without a body -/

/-- **What an instruction without a body does.** -/
theorem effect_op {o : Op} (hwide : o.isWide env.options.branchTableLimit = false)
    (offset : Nat) : ∃ g code, Writes (op env offset o) f () g code ∧ Effect o f code g := by
  by_cases hd : o.departs = true
  · cases o with
    | br depth =>
      obtain ⟨g, hq, hw⟩ := branches_branch f depth
      exact ⟨g, _, hw, .jumps hd (.inl rfl) hq (f.allAim_branchCode (List.mem_singleton_self _))⟩
    | brIf depth =>
      obtain ⟨g, hq, hw⟩ := writes_branchIf f depth
      refine ⟨g, _, hw, .jumps hd (.inr rfl) hq ?_⟩
      exact forall_guarded aims_of_frames
        (f.popped.allAim_branchCode (List.mem_singleton_self _)) _
    | brTable targets fallback =>
      simp only [Op.isWide, decide_eq_false_iff_not] at hwide
      obtain ⟨g, hq, hw, -⟩ := writes_branchTable f hwide
      exact ⟨g, _, hw, .jumps hd (.inr rfl) hq
        (forall_choiceCode aims_of_frames (fun _ ht => f.popped.allAim_branchCode
          ((Choice.depths_table _ targets fallback).mem_iff.1 ht)) _ _)⟩
    | ret =>
      obtain ⟨g, hq, hw⟩ := branches_leaveFunction f
      exact ⟨g, _, hw, .jumps hd (.inl rfl) hq (List.forall_mem_singleton.2 (List.forall_mem_nil _))⟩
    | _ => cases hd
  · rw [Bool.not_eq_true] at hd
    cases hm : o.mentions with
    | none =>
      have hserves : Served (op env offset o) f := by
        cases hp : o.plain env with
        | some p =>
          obtain ⟨g, hq, hw⟩ := writes_plain hp offset
          exact ⟨_, _, hw, .intro p [] hq (confined_plainCode (Op.confines_plain hp) g) (.refl _)⟩
        | none =>
          cases ht : o.task env with
          | some t =>
            obtain ⟨p, hp', -⟩ | ⟨-, hodd⟩ := Op.task_cases ht
            · rw [hp] at hp'
              cases hp'
            · exact op_eq_perform ht offset ▸ served_perform (confines_odd (Op.odd_code hodd)) f
          | none =>
            cases Op.special_of_task ht with
            | setjmp hs hmemory => exact op_eq_savePlace hs hmemory offset ▸ served_savePlace _ offset f
            | convert c => cases hp
            | br | brIf | brTable | ret => cases hd
            | localGet | localSet | localTee => cases hm
      obtain ⟨g, code, hw, hs⟩ := hserves
      exact ⟨g, code, hw, .serves hd hm hs⟩
    | some l =>
      by_cases hl : l < f.localTypes.length
      · cases o with
        | localGet k =>
          cases hm
          exact ⟨_, _, (keeps_localGet hl []).writes, .fetches rfl hl⟩
        | localSet k | localTee k =>
          cases hm
          exact ⟨_, _, (keeps_localSet hl _ []).writes, .stores _ rfl hl⟩
        | _ => cases hm
      · have hmisses : ∃ g code, Writes (op env offset o) f () g code ∧
            (∀ line ∈ code, line.Inert) ∧ Serves f code g := by
          rw [Nat.not_lt] at hl
          cases o with
          | localGet k =>
            cases hm
            exact misses_localGet hl
          | localSet k | localTee k =>
            cases hm
            exact misses_localSet hl _
          | _ => cases hm
        obtain ⟨g, code, hw, hi, hs⟩ := hmisses
        exact ⟨g, code, hw, .misses hd hi hs⟩

end

end Emit

end Moonstack
