import Moonstack.Proofs.Emission.Branches
import Moonstack.Proofs.Emission.Size
import Moonstack.Proofs.Emission.Steps

/-!
# What instructions keep

`Emit.Keeps` collects what holds of a piece of an instruction: what it writes, that the frame only
moves, that ownership of registers is handed on and none is lost, and that its code is well nested.

Every instruction without a body keeps all of that (`succeeds_op`), whatever is on the operand stack;
the one exception is a branch table that is too wide.
-/

namespace Moonstack.Emit

open Moonstack.Frame Moonstack.Flow

variable {α β : Type}

/-- The computation writes `code`, at most with the given labels; it moves the frame by `n` counter
steps, and hands on the registers in hand. -/
structure Keeps (n : Nat) (labels : List Label) (x : Emit α) (f : Frame) (held : List RegisterId)
    (a : α) (g : Frame) (held' : List RegisterId) (code : List Line) : Prop where
  writes : Writes x f a g code
  moved : Moved n f g
  owned : f.Owned held → g.Owned held'
  accounted : f.Owned held → f.Accounted held → g.Accounted held'
  shape : Shape labels code

namespace Keeps

variable {n k : Nat} {labels more : List Label} {x : Emit α} {next : α → Emit β}
  {f g h : Frame} {held held' held'' : List RegisterId} {a : α} {b : β} {code rest : List Line}

theorem bind (hx : Keeps n labels x f held a g held' code)
    (hn : Keeps k more (next a) g held' b h held'' rest) :
    Keeps (n + k) (labels ++ more) (x >>= next) f held b h held'' (code ++ rest) where
  writes := hx.writes.bind hn.writes
  moved := hx.moved.trans hn.moved
  owned ho := hn.owned (hx.owned ho)
  accounted ho ha := hn.accounted (hx.owned ho) (hx.accounted ho ha)
  shape := hx.shape.append hn.shape

/-- A step that takes no time and writes no label. -/
theorem seq (hx : Keeps 0 [] x f held a g held' code)
    (hn : Keeps k more (next a) g held' b h held'' rest) :
    Keeps k more (x >>= next) f held b h held'' (code ++ rest) := by
  have hb := hx.bind hn
  rw [Nat.zero_add, List.nil_append] at hb
  exact hb

/-- Code is written and the frame stays as it is. -/
theorem unmoved (hx : Writes x f a f code) (hs : Shape labels code) :
    Keeps 0 labels x f held a f held code :=
  ⟨hx, .refl f, fun ho => ho, fun _ ha => ha, hs⟩

theorem pure (f : Frame) (held : List RegisterId) (a : α) :
    Keeps 0 [] (Pure.pure a : Emit α) f held a f held [] :=
  .unmoved (.pure f a) .nil

theorem weaken (hx : Keeps n labels x f held a g held' code) (hl : labels.Sublist more) :
    Keeps n more x f held a g held' code :=
  { hx with shape := hx.shape.weaken hl }

end Keeps

/-- The computation succeeds and keeps what is to be kept. -/
def Succeeds (n : Nat) (labels : List Label) (x : Emit α) (f : Frame)
    (held held' : List RegisterId) : Prop :=
  ∃ a g code, Keeps n labels x f held a g held' code

namespace Succeeds

variable {n k : Nat} {labels more : List Label} {x : Emit α} {next : α → Emit β}
  {f g : Frame} {held held' held'' : List RegisterId} {a : α} {code : List Line}

theorem weaken (hx : Succeeds n labels x f held held') (hl : labels.Sublist more) :
    Succeeds n more x f held held' := by
  obtain ⟨a, g, code, hx⟩ := hx
  exact ⟨a, g, code, hx.weaken hl⟩

theorem of_quiet {y : Emit Unit} {code : List Line} (hy : ∃ h, Quiet g h ∧ Writes y f () h code)
    (hm : Moved 0 f g) (ho : f.Owned held → g.Owned held) (ha : f.Accounted held → g.Accounted held)
    (hs : Shape [] code) : Succeeds 0 [] y f held held := by
  obtain ⟨h, hg, hw⟩ := hy
  exact ⟨(), h, code, hw, hm.trans hg.moved, fun hf => hg.owned (ho hf),
    fun _ hf => hg.accounted (ha hf), hs⟩

end Succeeds

namespace Keeps

variable {k : Nat} {labels more : List Label} {x : Emit α} {next : α → Emit β}
  {f g : Frame} {held held' held'' : List RegisterId} {a : α} {code : List Line}

theorem succeeds (hx : Keeps k labels x f held a g held' code) : Succeeds k labels x f held held' :=
  ⟨a, g, code, hx⟩

theorem andThen (hx : Keeps 0 [] x f held a g held' code)
    (hn : Succeeds k more (next a) g held' held'') :
    Succeeds k more (x >>= next) f held held'' := by
  obtain ⟨b, h, rest, hn⟩ := hn
  exact ⟨b, h, _, hx.seq hn⟩

theorem andLast (hx : Keeps k more x f held a g held' code)
    (hn : Succeeds 0 [] (next a) g held' held'') : Succeeds k more (x >>= next) f held held'' := by
  obtain ⟨b, h, rest, hn⟩ := hn
  have hb := hx.bind hn
  rw [List.append_nil] at hb
  exact ⟨b, h, _, hb⟩

end Keeps

variable (f : Frame) (held : List RegisterId)

theorem keeps_frame : Keeps 0 [] frame f held f f held [] :=
  .unmoved (writes_frame f) .nil

theorem keeps_line (l : Line) (h : l.isFlat = true) :
    Keeps 0 l.label?.toList (line l) f held () f held [l] :=
  .unmoved (writes_line l f) (.flat h)

theorem keeps_stmt (s : Stmt) : Keeps 0 [] (stmt s) f held () f held [.stmt s] :=
  keeps_line f held (.stmt s) rfl

theorem keeps_warn (w : Warning) :
    Keeps 0 [] (warn w) f held () (f.warn w.message) held [warned w] where
  writes := writes_warn w f
  moved := .warn f _
  owned ho := ho.warn _
  accounted _ ha := ha.congr rfl rfl rfl
  shape := .comment _

theorem keeps_pop : Keeps 0 [] pop f held f.top f.popped held [] where
  writes := writes_pop f
  moved := .popped f
  owned ho := ho.popped
  accounted _ ha := ha.popped
  shape := .nil

theorem keeps_popMany (n : Nat) :
    Keeps 0 [] (popMany n) f held (f.tops n) (f.poppedMany n) held [] where
  writes := writes_popMany f n
  moved := .poppedMany f n
  owned ho := by
    induction n generalizing f with
    | zero => exact ho
    | succ n ih => exact ih f.popped ho.popped
  accounted _ ha := ha.poppedMany n
  shape := .nil

theorem keeps_peek (n : Nat) :
    Keeps 0 [] (step fun f => f.peek n) f held (f.peek n).1 (f.peek n).2 held [] where
  writes := writes_step _ f
  moved := .peek f n
  owned ho := ho.peek n
  accounted _ ha := ha.peek n
  shape := .nil

theorem keeps_temporary :
    Keeps 0 [] temporary f held f.temporary.1 f.temporary.2 (f.temporary.1 :: held) [] where
  writes := writes_temporary f
  moved := .temporary f
  owned ho := ho.temporary
  accounted _ ha := ha.temporary
  shape := .nil

theorem keeps_slotOf (id : RegisterId) :
    Keeps 0 [] (slotOf id) f held (f.registers.slotOf id) f held [] :=
  .unmoved (writes_slotOf id f) .nil

theorem keeps_assign (id : RegisterId) (value : Expr) :
    Keeps 0 [] (assign id value) f held () f held
      [.stmt (.assign [.slot (f.registers.slotOf id)] value)] :=
  (keeps_slotOf f held id).seq (keeps_stmt f held _)

theorem keeps_copy (id : RegisterId) (value : Operand) :
    Keeps 0 [] (copy id value) f held () f held (copied (f.registers.slotOf id) value) :=
  .unmoved (writes_copy id value f) (shape_copied _ _)

theorem keeps_pushHeld (id : RegisterId) :
    Keeps 0 [] (change fun f => f.pushRegister id) f (id :: held) () (f.pushRegister id) held []
    where
  writes := writes_change _ f
  moved := .pushRegister f id
  owned ho := ho.pushHeld
  accounted _ ha := ha.pushRegister
  shape := .nil

theorem keeps_pushLiteral (l : Literal) :
    Keeps 0 [] (change fun f => f.pushLiteral l) f held () (f.pushLiteral l) held [] where
  writes := writes_change _ f
  moved := .pushLiteral f l
  owned ho := ho.pushLiteral l
  accounted _ ha := ha.pushLiteral l
  shape := .nil

/-- The frame after a read of a local. -/
def fetched (f : Frame) (index : Nat) : Frame :=
  ((f.localRegister index).2.pushRegister (f.localRegister index).1).accessed index

theorem keeps_localGet {index : Nat} {f : Frame} (hi : index < f.localTypes.length)
    (held : List RegisterId) : Keeps 0 [] (localGet index) f held () (fetched f index) held [] := by
  refine (keeps_frame f held).seq ?_
  rw [if_neg (Nat.not_le.2 hi)]
  refine ⟨(writes_step _ f).silent ((writes_change _ _).silent
    (writes_attempt' (afterLocalAccess_eq _ index))), ?_, fun ho => ?_, fun _ ha => ?_, .nil⟩
  · exact (Moved.localRegister f index).trans ((Moved.pushRegister _ _).trans (.accessed _ _))
  · obtain ⟨ho', hb⟩ := ho.localRegister hi
    exact (ho'.pushBound hb).accessed index
  · exact (ha.localRegister index).pushRegister.accessed index

theorem succeeds_localGet (index : Nat) : Succeeds 0 [] (localGet index) f held held := by
  by_cases hi : index < f.localTypes.length
  · exact (keeps_localGet hi held).succeeds
  · refine (keeps_frame f held).andThen ?_
    rw [if_pos (Nat.le_of_not_lt hi)]
    exact (keeps_warn f held _).andThen (keeps_pushLiteral _ _ _).succeeds

/-- The entries of a local on the stack are moved to a copy. -/
def detached (f : Frame) (index : Nat) : Option Stmt × Frame :=
  (f.localRegister index).2.detachAliases (f.localRegister index).1

/-- The code of a write to a local. -/
def storeCode (f : Frame) (index : Nat) : List Line :=
  (detached f index).1.toList.map .stmt ++
    copied ((detached f index).2.popped.registers.slotOf (f.localRegister index).1)
      (detached f index).2.top

/-- The frame after a write to a local. -/
def stored (f : Frame) (index : Nat) (keep : Bool) : Frame :=
  let g := (detached f index).2.popped
  (if keep then g.pushRegister (f.localRegister index).1 else g).accessed index

/-- What is written for an assignment of a local. -/
theorem keeps_localSet {index : Nat} {f : Frame} (hi : index < f.localTypes.length) (keep : Bool)
    (held : List RegisterId) :
    Keeps 0 [] (localSet index keep) f held () (stored f index keep) held (storeCode f index) := by
  refine (keeps_frame f held).seq ?_
  rw [if_neg (Nat.not_le.2 hi)]
  have hlast (g : Frame) (id : RegisterId) : Writes (storeLocal index keep id) g ()
      ((if keep then g.popped.pushRegister id else g.popped).accessed index)
      (copied (g.popped.registers.slotOf id) g.top) := by
    refine (writes_pop g).silent ?_
    rw [← List.append_nil (copied _ _)]
    refine (writes_copy id _ _).bind ?_
    cases keep with
    | true => exact (writes_change _ _).silent (writes_attempt' (afterLocalAccess_eq _ index))
    | false => exact writes_attempt' (afterLocalAccess_eq _ index)
  refine ⟨(writes_step _ f).silent ((writes_step _ _).silent ?_), ?_, fun ho => ?_,
    fun ho ha => ?_, ?_⟩
  · unfold detached
    cases ((f.localRegister index).2.detachAliases (f.localRegister index).1).1 with
    | none => exact hlast _ _
    | some s => exact (writes_stmt s _).bind (hlast _ _)
  · have hm := (Moved.localRegister f index).trans
      ((Moved.detachAliases _ (f.localRegister index).1).trans (Moved.popped _))
    unfold stored detached
    cases keep with
    | true => exact hm.trans ((Moved.pushRegister _ _).trans (.accessed _ _))
    | false => exact hm.trans (.accessed _ _)
  · obtain ⟨ho₁, hb⟩ := ho.localRegister hi
    obtain ⟨ho₂, hn⟩ := ho₁.detachAliases hb
    unfold stored detached
    cases keep with
    | true =>
      have hb₂ := Owned.bound_popped (locals_detachAliases _ _ ▸ hb) hn
      exact (ho₂.popped.pushBound hb₂).accessed index
    | false => exact ho₂.popped.accessed index
  · obtain ⟨ho₁, hb⟩ := ho.localRegister hi
    obtain ⟨-, hn⟩ := ho₁.detachAliases hb
    have hb₂ := Owned.bound_popped (locals_detachAliases _ _ ▸ hb) hn
    have ha₂ := (ha.localRegister index).detachAliases.popped
    unfold stored detached
    cases keep with
    | true => exact ha₂.pushRegister.accessed index
    | false => exact ha₂.accessedHeld hb₂
  · refine Nested.append (?_ : Shape [] _) (shape_copied _ _)
    cases (detached f index).1 with
    | none => exact .nil
    | some s => exact .stmt s

theorem succeeds_localSet (index : Nat) (keep : Bool) :
    Succeeds 0 [] (localSet index keep) f held held := by
  by_cases hi : index < f.localTypes.length
  · exact (keeps_localSet hi keep held).succeeds
  · refine (keeps_frame f held).andThen ?_
    rw [if_pos (Nat.le_of_not_lt hi)]
    refine (keeps_warn f held _).andThen ((keeps_pop _ _).andThen ?_)
    cases keep with
    | true => exact (keeps_pushLiteral _ _ _).succeeds
    | false => exact (Keeps.pure _ _ _).succeeds

theorem shape_of_steps {lines : List Line} (h : ∀ l ∈ lines, l.isStep = true) : Shape [] lines := by
  induction lines with
  | nil => exact .nil
  | cons l rest ih =>
    have hl : Shape [] [l] := by
      have hstep := h l List.mem_cons_self
      cases l with
      | stmt s => exact .stmt s
      | choice c s t => exact .flat (l := .choice c s t) rfl
      | _ => cases hstep
    exact hl.append (ih fun l' hl' => h l' (List.mem_cons_of_mem _ hl'))

theorem keeps_warns (warnings : List Warning) :
    Keeps 0 [] (warnings.forM warn) f held () (f.warnAll warnings) held (warnings.map warned) := by
  induction warnings generalizing f with
  | nil => exact .pure _ _ _
  | cons w rest ih => exact (keeps_warn f held w).seq (ih _)

theorem keeps_lines {lines : List Line} (hs : Shape [] lines) :
    Keeps 0 [] (lines.forM line) f held () f held lines :=
  .unmoved (writes_lines lines f) hs

theorem keeps_temporaries (n : Nat) :
    ∃ ids g, Keeps 0 [] (temporaries n) f held ids g (ids ++ held) [] := by
  induction n generalizing f held with
  | zero => exact ⟨[], f, .pure _ _ _⟩
  | succ n ih =>
    obtain ⟨ids, g, hk⟩ := ih f.temporary.2 (f.temporary.1 :: held)
    refine ⟨f.temporary.1 :: ids, g, (keeps_temporary f held).seq ?_⟩
    exact ⟨hk.writes.silent (.pure g _), hk.moved,
      fun ho => (hk.owned ho).perm List.perm_middle,
      fun ho ha => (hk.accounted ho ha).mono List.perm_middle.subset, .nil⟩

/-- Registers in hand go to the stack. -/
theorem keeps_pushAll (ids : List RegisterId) :
    Keeps 0 [] (change fun f => ids.foldl Frame.pushRegister f) f (ids ++ held) ()
      (ids.foldl Frame.pushRegister f) held [] where
  writes := writes_change _ f
  moved := by
    induction ids generalizing f with
    | nil => exact .refl f
    | cons id rest ih => exact (Moved.pushRegister f id).trans (ih _)
  owned ho := by
    induction ids generalizing f with
    | nil => exact ho
    | cons id rest ih => exact ih _ ho.pushHeld
  accounted _ ha := ha.pushAll
  shape := .nil

theorem keeps_pushLiterals (literals : List Literal) :
    Keeps 0 [] (change fun f => literals.foldl Frame.pushLiteral f) f held ()
      (literals.foldl Frame.pushLiteral f) held [] where
  writes := writes_change _ f
  moved := by
    induction literals generalizing f with
    | nil => exact .refl f
    | cons l rest ih => exact (Moved.pushLiteral f l).trans (ih _)
  owned ho := by
    induction literals generalizing f with
    | nil => exact ho
    | cons l rest ih => exact ih _ (ho.pushLiteral l)
  accounted _ ha := ha.pushLiterals literals
  shape := .nil

theorem succeeds_perform {t : Task} (hs : ∀ xs ds, Shape [] (t.code xs ds)) :
    Succeeds 0 [] (perform t) f held held := by
  refine (keeps_warns f held t.notices).andThen ?_
  obtain ⟨ids, g, hids⟩ := keeps_temporaries (f.warnAll t.notices) held t.pushes
  refine hids.andThen ((keeps_popMany g _ _).andThen ((keeps_warns _ _ _).andThen
    ((keeps_frame _ _).andThen ((keeps_lines _ _ (hs _ _)).andThen ?_))))
  have hpush := (keeps_pushAll · held ids)
  have hliterals := (keeps_pushLiterals · held t.literals)
  exact ⟨(), _, [], writes_change _ _, (hpush _).moved.trans (hliterals _).moved,
    fun ho => (hliterals _).owned ((hpush _).owned ho), fun ho ha =>
      (hliterals _).accounted ((hpush _).owned ho) ((hpush _).accounted ho ha), .nil⟩

theorem succeeds_convert (c : Conversion) : Succeeds 0 [] (convert c) f held held :=
  (keeps_peek f held 0).andThen (succeeds_perform _ _ fun _ _ => shape_of_steps fun l hl =>
    (Plain.steps_conversion False.elim l hl).step)

theorem keeps_site (site : ResumeSite) :
    Keeps 0 [] (change fun f => { f with sites := f.sites.push site }) f held ()
      { f with sites := f.sites.push site } held [] where
  writes := writes_change _ f
  moved := .of_stack (.of_registers rfl rfl rfl rfl rfl rfl rfl fun h => ⟨_, h, rfl, rfl, rfl⟩)
    rfl rfl rfl
  owned ho := ho.congr rfl rfl rfl rfl rfl rfl rfl
  accounted _ ha := ha.congr rfl rfl rfl
  shape := .nil

theorem succeeds_savePlace (handle : String) (offset : Nat) :
    Succeeds 0 [.resume offset] (savePlace handle offset) f held held := by
  refine (keeps_temporary f held).andThen ((keeps_pop _ _).andThen
    ((keeps_frame _ _).andThen ((keeps_stmt _ _ _).andThen ?_)))
  refine (keeps_line _ _ (.label (.resume offset)) rfl).andLast ?_
  refine (keeps_assign _ _ _ _).andThen ((keeps_pushHeld _ held _).andThen
    ((keeps_frame _ _).andThen ?_))
  simp only
  split
  · exact (keeps_warn _ _ _).andThen (keeps_site _ _ _).succeeds
  · exact (keeps_site _ _ _).succeeds

/-- **An instruction without a body is always written**, unless it is a wide table. -/
theorem succeeds_op {env : Env} {o : Op} (hw : o.isWide env.options.branchTableLimit = false)
    (offset : Nat) : Succeeds 0 [.resume offset] (op env offset o) f held held := by
  have hnone {x : Emit Unit} (h : Succeeds 0 [] x f held held) :
      Succeeds 0 [.resume offset] x f held held := h.weaken (List.nil_sublist _)
  cases ht : o.task env with
  | some t => exact hnone (op_eq_perform ht offset ▸ succeeds_perform f held fun _ _ =>
      shape_of_steps fun l hl => (Op.steps_task ht (fun h : False => h.elim) False.elim l hl).step)
  | none =>
    cases Op.special_of_task ht with
    | br depth =>
      exact hnone (.of_quiet (branches_branch f depth) (.refl f) (fun ho => ho) (fun ha => ha)
        (f.shape_branchCode depth))
    | brIf depth =>
      exact hnone (.of_quiet (writes_branchIf f depth) (.popped f) Owned.popped Accounted.popped
        (.ifThen (f.popped.shape_branchCode depth).inner _))
    | brTable targets fallback =>
      simp only [Op.isWide, decide_eq_false_iff_not] at hw
      obtain ⟨g, hq, hg, -⟩ := writes_branchTable f hw
      exact hnone (.of_quiet ⟨g, hq, hg⟩ (.popped f) Owned.popped Accounted.popped
        (shape_choiceCode _ _ _).1)
    | ret =>
      exact hnone (.of_quiet (branches_leaveFunction f) (.refl f) (fun ho => ho) (fun ha => ha)
        (.stmt _))
    | localGet index => exact hnone (succeeds_localGet f held index)
    | localSet index => exact hnone (succeeds_localSet f held index false)
    | localTee index => exact hnone (succeeds_localSet f held index true)
    | convert c => exact hnone (succeeds_convert f held c)
    | setjmp hs hm => exact op_eq_savePlace hs hm offset ▸ succeeds_savePlace f held _ offset

/-- A branch table that is too wide is refused wherever it stands. -/
theorem fails_op {env : Env} {o : Op} (hw : o.isWide env.options.branchTableLimit = true)
    (offset : Nat) (f : Frame) :
    ∃ count, Fails (op env offset o) f
      (.rejected (.wideBranchTable count env.options.branchTableLimit)) := by
  cases o with
  | brTable targets fallback =>
    simp only [Op.isWide, decide_eq_true_eq] at hw
    exact ⟨_, fails_branchTable f hw⟩
  | _ => cases hw

end Moonstack.Emit
