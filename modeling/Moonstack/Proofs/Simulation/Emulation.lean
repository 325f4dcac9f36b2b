import Moonstack.Proofs.Semantics.Templates
import Moonstack.Proofs.Simulation.Functions

/-!
# Emulation of the operand stack

The code of a straight-line function does what the stack machine does, for every interpretation of
the operations: it acts on the world in the same way, in the same order, on operands of the same
values, and returns the same results.

The slots are tied to the frame as for any domain (`Domain.Match`). The domain here is that of the
moves between slots and of the zeros, which leave the world alone (`Interpretation.domain`); it says
what the code around the operations does. For the operations themselves, the code is their template
(`Op.realizes_plain`).
-/

namespace Moonstack

open Moonstack.Frame Emit

/-! ## Operands in slots -/

namespace Frame

variable {f : Frame} {held : List RegisterId}

theorem register_of_mem_tops {n d : Nat} (ho : f.Owned held) (h : .slot d ∈ f.tops n) :
    ∃ id, .register id ∈ f.stack ∧ f.registers.slotOf id = d := by
  induction n generalizing f with
  | zero => cases h
  | succ n ih =>
    rcases List.mem_append.1 h with h | h
    · obtain ⟨id, hid, hd⟩ := ih ho.popped h
      have hmem : .register id ∈ f.stack := by
        rw [(Moved.popped_frame f).1] at hid
        split at hid
        · exact hid
        · exact List.mem_of_mem_tail hid
      obtain ⟨a, ha, -⟩ := ho.stacked hmem
      exact ⟨id, hmem, ((later_popped f).slotOf ha).symm.trans hd⟩
    · exact register_of_top (List.mem_singleton.1 h).symm

/-- **No result stands in the slot of an operand.** -/
theorem not_mem_arguments (ho : f.Owned held) {p : Plain} {d : Nat}
    (hd : d ∈ (f.results p).map (f.consumed p).registers.slotOf) : .slot d ∉ f.arguments p := by
  intro hm
  have hot := ho.temporaries p.pushes
  obtain ⟨id, hid, rfl⟩ := List.mem_map.1 hd
  obtain ⟨j, hj, hslot⟩ := register_of_mem_tops hot hm
  have hk : id ∈ (f.temporaries p.pushes).2.reserved (f.results p ++ held) :=
    List.mem_append_right _ (List.mem_append_left _ hid)
  obtain ⟨a, ha, hlive, -⟩ := hot.kept hk
  obtain ⟨b, hb, hlive'⟩ := hot.stacked hj
  have hsame : (f.consumed p).registers.slotOf id =
      (f.temporaries p.pushes).2.registers.slotOf id :=
    (Moved.poppedMany _ p.pops).toLater.slotOf ha
  refine Domain.Match.slot_ne hot ha hb hlive hlive' ?_ (hsame.symm.trans hslot.symm)
  rintro rfl
  exact hot.kept_not_stacked hk hj

end Frame

/-! ## Moves and zeros -/

namespace Interpretation

variable {V W : Type} (I : Interpretation V W)
variable {σ : Nat → V}

/-- The domain of the statements that do nothing to the world. -/
@[reducible] def domain : Domain where
  Value := V
  Cell := V
  cell := id
  empty := I.nil
  const c := some (I.const c)
  zero := I.zeroOf
  exec s σ := if s.acts then
    (s.operands.mapM (I.operand σ)).bind fun vs =>
      (I.given s.shape vs).map fun v => assignAll I.nil s.changes [v] σ
    else none
  Ready _ _ := False
  Tests _ _ _ := False
  Unbounded := False
  Performs _ _ _ := False
  Testable _ := False
  Holds _ _ := True
  Selects _ _ _ := True

theorem has_iff {o : Operand} {v : V} : I.domain.Has σ o v ↔ I.operand σ o = some v := by
  cases o with
  | slot n => exact Option.some_inj.symm
  | missing => exact ⟨nofun, nofun⟩
  | literal l =>
    cases l with
    | const c => exact Iff.rfl
    | _ => exact ⟨nofun, nofun⟩

theorem mapM_operand {operands : List Operand} {vs : List V}
    (h : List.Forall₂ (I.domain.Has σ) operands vs) : operands.mapM (I.operand σ) = some vs := by
  induction h with
  | nil => rfl
  | cons ho _ ih =>
    rw [List.mapM_cons, I.has_iff.1 ho, ih]
    rfl

theorem exec_copy_domain {o : Operand} {v : V} (h : I.domain.Has σ o v) (d : Nat) :
    I.domain.exec (.assign [.slot d] (.operand o)) σ = some (Function.update σ d v) := by
  have hops : (Stmt.assign [.slot d] (.operand o)).operands = [o] := rfl
  simp only [domain, hops, List.mapM_cons, I.has_iff.1 h]
  rfl

theorem lawful_domain (env : Env) : I.domain.Lawful env where
  exec_copy d h := I.exec_copy_domain h d
  exec_zero σ d type := by cases type <;> rfl
  ready_zero _ h := h.2.elim
  ready_test h := h.2.elim
  tests_ne h := h.2.elim
  tests_eq h := h.2.elim
  selects h := h.2.elim
  performs _ h := h.elim

variable {I}

theorem exec_of_domain {s : Stmt} {τ : Nat → V} (h : I.domain.exec s σ = some τ) (x : Effects V W) :
    I.exec s ⟨σ, x⟩ = some ⟨τ, x⟩ := by
  simp only [domain] at h
  split at h
  · rename_i hacts
    obtain ⟨vs, hvs, hgiven⟩ := Option.bind_eq_some_iff.1 h
    obtain ⟨v, hv, rfl⟩ := Option.map_eq_some_iff.1 hgiven
    simp only [exec, if_pos hacts, hvs, Option.map_some, apply, hv]
  · cases h

/-! ## Sequences of lines -/

theorem lines_append (part more : List Line) (r : Running V W) :
    I.lines (part ++ more) r = (I.lines part r).bind (I.lines more) := by
  induction part generalizing r with
  | nil => rfl
  | cons l rest ih =>
    rw [List.cons_append, lines, lines, Option.bind_assoc]
    exact congrArg _ (funext ih)

theorem lines_comments (texts : List String) (r : Running V W) :
    I.lines (texts.map .comment) r = some r := by
  induction texts with
  | nil => rfl
  | cons text rest ih => exact ih

theorem lines_comment_if {p : Prop} [Decidable p] (text : String) (r : Running V W) :
    I.lines (if p then [.comment text] else []) r = some r := by
  split <;> rfl

/-- Code that only moves values. -/
theorem lines_of_through {Q : (Nat → V) → Prop} {part : List Line} (h : I.domain.Through Q part σ)
    (x : Effects V W) : ∃ τ, I.lines part ⟨σ, x⟩ = some ⟨τ, x⟩ ∧ Q τ := by
  induction part generalizing σ with
  | nil => exact ⟨σ, rfl, h⟩
  | cons l rest ih =>
    cases l with
    | stmt s =>
      obtain ⟨-, τ, he, hrest⟩ := h
      obtain ⟨τ', hlines, hQ⟩ := ih hrest
      refine ⟨τ', ?_, hQ⟩
      rw [lines, line, exec_of_domain he, Option.bind_some, hlines]
    | choice c s t => exact h.1.elim
    | _ => exact h.elim

/-- Lines that do not return are run before those behind them. -/
theorem run_append {part : List Line} (more : List Line) {r r' : Running V W}
    (h : I.lines part r = some r') : I.run (part ++ more) r = I.run more r' := by
  induction part generalizing r with
  | nil =>
    cases h
    rfl
  | cons l rest ih =>
    obtain ⟨r₁, hl, hrest⟩ := Option.bind_eq_some_iff.1 h
    have hstep : I.run (l :: (rest ++ more)) r = (I.line l r).bind (I.run (rest ++ more)) := by
      cases l with
      | stmt s =>
        cases s with
        | ret operands => cases hl
        | _ => rfl
      | _ => rfl
    rw [List.cons_append, hstep, hl, Option.bind_some, ih hrest]

end Interpretation

/-! ## Straight-line bodies -/

theorem Op.jumps_of_isStraight {registry : Registry} {o : Op} (h : o.isStraight registry = true) :
    o.jumps registry = false := by
  cases o with
  | call index => exact Bool.not_eq_true' _ ▸ h
  | _ => rfl

namespace Instr

variable {env : Env} {body : List Instr}

/-- A straight-line body meets all that is asked of bodies. -/
theorem checked_of_isStraight (h : body.all (isStraight env.registry) = true)
    (s : List (Option Nat)) : bodyIsSteady env [] s body = true ∧
      bodyHasWide env.options.branchTableLimit body = false ∧
      bodyAllOps (!·.jumps env.registry) body = true := by
  induction body generalizing s with
  | nil => exact ⟨rfl, rfl, rfl⟩
  | cons i rest ih =>
    obtain ⟨hi, hrest⟩ := Bool.and_eq_true_iff.1 h
    obtain ⟨hsteady, hwide, hjumps⟩ := ih hrest (i.standing env s)
    cases i with
    | leaf offset o =>
      have hj := Op.jumps_of_isStraight hi
      refine ⟨Bool.and_eq_true_iff.2 ⟨?_, hsteady⟩, Bool.or_eq_false_iff.2 ⟨?_, hwide⟩,
        Bool.and_eq_true_iff.2 ⟨?_, hjumps⟩⟩
      · cases o <;> rfl
      · cases o <;> first | rfl | cases hi
      · rw [allOps, hj]
        rfl
    | _ => cases hi

end Instr

/-! ## Instructions -/

namespace Domain

open Interpretation

variable {V W : Type} {I : Interpretation V W} {env : Env} {f g : Frame} {A : Nat → Prop}
  {vals outer : List V} {ls σ : Nat → V}

/-- The code of an instruction that takes operands and does nothing. -/
theorem Match.discarded {p : Plain} {args : List V}
    (h : Match I.domain f A (args.reverse ++ vals) outer ls σ) (ho : f.Owned [])
    (hargs : args.length = p.pops) (hp : p.pushes = 0) :
    Match I.domain (f.performed p) A vals outer ls σ := by
  have hslots := Match.length_resultSlots f p
  rw [hp, List.length_eq_zero_iff] at hslots
  have hres : List.Forall₂ (fun d v => σ d = v)
      ((f.results p).map (f.consumed p).registers.slotOf) [] := hslots ▸ .nil
  exact (h.consumed ho hargs).2.produced ho hres fun _ _ => rfl

/-- The code of `select`. -/
theorem Match.selected {a b c : V} (h : Match I.domain f A (c :: b :: a :: vals) outer ls σ)
    (ho : f.Owned []) (x : Effects V W) :
    ∃ σ', I.lines (f.plainCode .select) ⟨σ, x⟩ = some ⟨σ', x⟩ ∧
      Match I.domain (f.performed .select) A ((if I.nonzero c then a else b) :: vals) outer ls σ' := by
  obtain ⟨d, hd⟩ := List.length_eq_one_iff.1 (Match.length_resultSlots f .select)
  have hargs : Match I.domain f A ([a, b, c].reverse ++ vals) outer ls σ := h
  obtain ⟨hops, hm⟩ := hargs.consumed (p := .select) ho rfl
  refine ⟨Function.update σ d (if I.nonzero c then a else b), ?_, ?_⟩
  · unfold plainCode
    rw [hd]
    generalize f.arguments .select = xs at hops
    obtain ⟨x₁, xs₁, ha, hops₁, rfl⟩ := List.forall₂_cons_right_iff.1 hops
    obtain ⟨x₂, xs₂, hb, hops₂, rfl⟩ := List.forall₂_cons_right_iff.1 hops₁
    obtain ⟨x₃, xs₃, hc, hops₃, rfl⟩ := List.forall₂_cons_right_iff.1 hops₂
    cases hops₃
    have hcopy {o : Operand} {v : V} (hv : I.domain.Has σ o v) :
        I.exec (.assign [.slot d] (.operand o)) ⟨σ, x⟩ = some ⟨Function.update σ d v, x⟩ :=
      exec_of_domain (I.exec_copy_domain hv d) x
    simp only [Plain.select, lines, Interpretation.line, I.has_iff.1 hc, Option.bind_eq_bind,
      Option.bind_some, hcopy ha, hcopy hb]
    split <;> rfl
  · have hres : List.Forall₂
        (fun e v => Function.update σ d (if I.nonzero c then a else b) e = v)
        ((f.results .select).map (f.consumed .select).registers.slotOf)
        [if I.nonzero c then a else b] := by
      rw [hd]
      exact .cons (Function.update_self _ _ _) .nil
    refine hm.produced ho hres fun e he => ?_
    rw [hd] at he
    exact Function.update_of_ne (List.ne_of_not_mem_cons he) _ _

/-- The code of an operation. -/
theorem Match.operated {p : Plain} {t : Template} (hr : p.Realizes t) {args : List V}
    (h : Match I.domain f A (args.reverse ++ vals) outer ls σ) (ho : f.Owned [])
    (hargs : args.length = p.pops) (x : Effects V W) :
    ∃ (results : List V) (y : Effects V W) (σ' : Nat → V),
      Machine.perform I ⟨args.reverse ++ vals, ls, x⟩ t =
        some ⟨results.reverse ++ vals, ls, y⟩ ∧ results.length = p.pushes ∧
      I.lines (f.plainCode p) ⟨σ, x⟩ = some ⟨σ', y⟩ ∧
      Match I.domain (f.performed p) A (results.reverse ++ vals) outer ls σ' := by
  obtain ⟨hops, hm⟩ := h.consumed ho hargs
  have hvals : List.Forall₂ (fun o v => I.operand σ o = some v) (f.arguments p) args :=
    hops.imp fun _ _ => I.has_iff.1
  obtain ⟨results, y, σ', hrun, hlen, hlines, hres, hframe⟩ := lines_realized hr hvals
    (hvals.length_eq.trans hargs) (Match.length_resultSlots f p)
    (Match.nodup_slots (Match.owned_consumed ho p)) (fun d hd => not_mem_arguments ho hd) x
  refine ⟨results, y, σ', ?_, hlen, hlines, hm.produced ho hres hframe⟩
  rw [Machine.perform_append I (hargs.trans hr.pops), hrun]
  rfl

/-- **The code of a plain instruction** does what the machine does. -/
theorem Match.emulated {o : Op} {p : Plain} (hp : o.plain env = some p) (ho : f.Owned [])
    (h : Match I.domain f A vals outer ls σ) (hlen : p.pops ≤ vals.length) (x : Effects V W) :
    ∃ stack y σ', o.step I env ⟨vals, ls, x⟩ = some ⟨stack, ls, y⟩ ∧
      stack.length + p.pops = vals.length + p.pushes ∧
      I.lines (f.plainCode p) ⟨σ, x⟩ = some ⟨σ', y⟩ ∧
      Match I.domain (f.performed p) A stack outer ls σ' := by
  obtain ⟨args, below, hargs, rfl⟩ : ∃ args below : List V, args.length = p.pops ∧
      vals = args.reverse ++ below :=
    ⟨(vals.take p.pops).reverse, vals.drop p.pops, by simp [hlen], by simp⟩
  have hoperation {t : Template} (hr : p.Realizes t)
      (hstep : o.step I env ⟨args.reverse ++ below, ls, x⟩ =
        Machine.perform I ⟨args.reverse ++ below, ls, x⟩ t) :
      ∃ stack y σ', o.step I env ⟨args.reverse ++ below, ls, x⟩ = some ⟨stack, ls, y⟩ ∧
        stack.length + p.pops = (args.reverse ++ below).length + p.pushes ∧
        I.lines (f.plainCode p) ⟨σ, x⟩ = some ⟨σ', y⟩ ∧
        Match I.domain (f.performed p) A stack outer ls σ' := by
    obtain ⟨results, y, σ', hperform, hres, hlines, hm⟩ := h.operated hr ho hargs x
    refine ⟨_, y, σ', hstep.trans hperform, ?_, hlines, hm⟩
    simp only [List.length_append, List.length_reverse, hres, hargs]
    omega
  cases o with
  | nop =>
    cases hp
    obtain rfl := List.length_eq_zero_iff.1 hargs
    exact ⟨below, x, σ, rfl, rfl, rfl, h.discarded ho hargs rfl⟩
  | drop =>
    cases hp
    obtain ⟨v, rfl⟩ := List.length_eq_one_iff.1 hargs
    exact ⟨below, x, σ, rfl, rfl, rfl, h.discarded ho hargs rfl⟩
  | select =>
    cases hp
    obtain ⟨a, b, c, rfl⟩ := List.length_eq_three.1 hargs
    obtain ⟨σ', hlines, hm⟩ := Match.selected h ho x
    exact ⟨_, x, σ', rfl, rfl, hlines, hm⟩
  | convert c =>
    by_cases hc : c.lower (.slot 0) = none
    · rw [Op.plain, Plain.conversion, (Plain.unary_eq_none c.lower_isSome _).2 hc] at hp
      cases hp
      obtain rfl := List.length_eq_zero_iff.1 hargs
      refine ⟨below, x, σ, ?_, rfl, rfl, h.discarded ho hargs rfl⟩
      simp only [Op.step, Op.template, hc, Option.map_none]
      rfl
    · obtain ⟨t, ht, hr⟩ := Op.realizes_plain hp (by simp) fun c' hc' => by
        cases hc'
        exact hc
      refine hoperation hr ?_
      simp only [Op.step, ht]
  | _ =>
    first
    | cases hp
    | obtain ⟨t, ht, hr⟩ := Op.realizes_plain hp (by simp) (by simp)
      refine hoperation hr ?_
      simp only [Op.step, ht, Option.bind_some]

variable {L : Lifetimes} {count : Nat} {rest : List Entry} {outerS s : List (Option Nat)}
  {C : TypeContext} {offset : Nat} {o : Op} {code : List Line}

/-- The code of an assignment to a local moves the value on top of the stack. -/
theorem Match.emulated_store (env : Env) {l : Nat} {v : V} (hf : Frame.Setting L count f)
    (h : Match I.domain f A (v :: vals) outer ls σ) (ho : f.Owned []) (hl : l < f.localTypes.length)
    (hforced : ∀ t, (t, l) ∈ L.forced → t ≤ f.clock) (keep : Bool) (x : Effects V W) :
    ∃ σ', I.lines (storeCode f l) ⟨σ, x⟩ = some ⟨σ', x⟩ ∧
      Match I.domain (Emit.stored f l keep) (fun i => A i ∨ some l = some i)
        (if keep then v :: vals else vals) outer (Function.update ls l v) σ' := by
  obtain ⟨σ', hlines, hm⟩ := lines_of_through
    (h.stored (I.lawful_domain env) ho hl (by rwa [hf.lifetimes]) keep) x
  exact ⟨σ', hlines, hm.mono fun i hi => hi.imp_right fun he => (Option.some.inj he).symm⟩

/-- **One instruction**: its own code. -/
theorem Match.emulated_op {tick base : Nat} {params results : List ValueType}
    (hf : Frame.Setting L count f) (hst : Stands outerS s rest f)
    (typed : o.HasType C params results) (hr : C.registry = env.registry)
    (hcount : C.locals.length = count) (hj : o.jumps env.registry = false)
    (hc : (Instr.leaf offset o).Covered L count A tick) (ht : f.clock = tick + 1)
    (hw : Writes (op env offset o) f () g code)
    (h : Match I.domain f (L.zeroing (tick + 1) A) vals outer ls σ)
    (hv : I.domain.Offers f (L.zeroing (tick + 1) A) ls σ)
    (hlen : vals.length = params.length + base) (x : Effects V W) :
    ∃ (m : Machine V W) (σ' : Nat → V), o.step I env ⟨vals, ls, x⟩ = some m ∧
      m.stack.length = results.length + base ∧ I.lines code ⟨σ, x⟩ = some ⟨σ', m.effects⟩ ∧
      Match I.domain g (fun l => L.zeroing (tick + 1) A l ∨ o.assigns = some l) m.stack outer
        m.locals σ' := by
  have hknown := typed.isKnown hr hj
  have hplain := typed.plain hr hj
  have hlocals : f.localTypes.length = C.locals.length := hf.count.trans hcount.symm
  have hcons {type : ValueType} (hlen : vals.length = [type].length + base) :
      ∃ v below, vals = v :: below :=
    List.exists_cons_of_length_pos (by rw [hlen, List.length_singleton]; omega)
  cases typed with
  | @localGet l type known =>
    have hl : l < C.locals.length := of_decide_eq_true hknown
    obtain ⟨hz, hspan, -⟩ := hc.2 (hcount ▸ hl)
    rw [← hlocals] at hl
    obtain ⟨-, rfl, rfl⟩ := hw.unique (keeps_localGet hl []).writes
    refine ⟨⟨ls l :: vals, ls, x⟩, σ, rfl, ?_, rfl,
      (h.fetched hst.owned hl (hv l hz ?_)).unassigned rfl⟩
    · rw [List.length_cons, hlen, List.length_nil, List.length_singleton]
      omega
    · rw [hf.lifetimes, ht]
      exact hspan
  | @localSet l type known =>
    have hl : l < C.locals.length := of_decide_eq_true hknown
    obtain ⟨-, hforced⟩ := hc.2 (hcount ▸ hl)
    rw [← hlocals] at hl
    obtain ⟨-, rfl, rfl⟩ := hw.unique (keeps_localSet hl false []).writes
    obtain ⟨v, below, rfl⟩ := hcons hlen
    obtain ⟨σ', hlines, hm⟩ := h.emulated_store env hf hst.owned hl (ht ▸ hforced) false x
    refine ⟨⟨below, Function.update ls l v, x⟩, σ', rfl, ?_, hlines, hm⟩
    simpa [Nat.add_comm] using hlen
  | @localTee l type known =>
    have hl : l < C.locals.length := of_decide_eq_true hknown
    obtain ⟨-, hforced⟩ := hc.2 (hcount ▸ hl)
    rw [← hlocals] at hl
    obtain ⟨-, rfl, rfl⟩ := hw.unique (keeps_localSet hl true []).writes
    obtain ⟨v, below, rfl⟩ := hcons hlen
    obtain ⟨σ', hlines, hm⟩ := h.emulated_store env hf hst.owned hl (ht ▸ hforced) true x
    exact ⟨⟨v :: below, Function.update ls l v, x⟩, σ', rfl, hlen, hlines, hm⟩
  | const value =>
    obtain ⟨-, rfl, rfl⟩ := hw.unique (keeps_pushLiteral f [] (.const value)).writes
    refine ⟨⟨I.const value :: vals, ls, x⟩, σ, rfl, ?_, rfl,
      (h.pushLiteral hst.owned rfl).unassigned rfl⟩
    rw [List.length_cons, hlen, List.length_nil, List.length_singleton]
    omega
  | _ =>
    -- what is left is plain; operands that it keeps are those of a conversion without a spelling
    obtain ⟨p, kept, hp, hparams, hresults⟩ := hplain (by simp) (by simp)
    obtain ⟨f', hq, hw'⟩ := writes_plain hp offset
    obtain ⟨-, rfl, rfl⟩ := hw.unique hw'
    obtain ⟨stack, y, σ', hstep, hstack, hlines, hm⟩ :=
      (h.quiet hst.owned hq).emulated hp (hq.owned hst.owned) (by omega) x
    refine ⟨⟨stack, ls, y⟩, σ', hstep, ?_, hlines, hm.unassigned rfl⟩
    change stack.length = _
    omega

/-- **One instruction**, with the code around its own. -/
theorem Match.emulated_leaf {base : Nat} {params results : List ValueType}
    (hf : Frame.Setting L count f) (hst : Stands outerS s rest f)
    (typed : o.HasType C params results) (hr : C.registry = env.registry)
    (hcount : C.locals.length = count) (hj : o.jumps env.registry = false)
    (hc : Instr.Checked env L count outerS s A f.clock (.leaf offset o))
    (hw : Writes (instr env (.leaf offset o)) f () g code) (h : Match I.domain f A vals outer ls σ)
    (hlen : vals.length = params.length + base) (x : Effects V W) :
    ∃ (m : Machine V W) (σ' : Nat → V), o.step I env ⟨vals, ls, x⟩ = some m ∧
      m.stack.length = results.length + base ∧ I.lines code ⟨σ, x⟩ = some ⟨σ', m.effects⟩ ∧
      Match I.domain g ((Instr.leaf offset o).leaves L A f.clock) m.stack outer m.locals σ' := by
  obtain ⟨_, g', inner, ho⟩ := succeeds_op f.begun [] hc.narrow offset
  obtain ⟨-, rfl, rfl⟩ := hw.unique (writes_leaf ho.writes)
  have hst' := hst.started hf
  obtain ⟨τ, hzeros, hbegun, hoffers⟩ :=
    lines_of_through (h.begun (I.lawful_domain env) hf hst hc.covered.1) x
  obtain ⟨m, σ', hstep, hstack, hlines, hm⟩ := hbegun.emulated_op (hf.opening .block) hst' typed hr
    hcount hj hc.covered (clock_begun f) ho.writes hoffers hlen x
  refine ⟨m, σ', hstep, hstack, ?_, hm.finished (ho.owned hst'.owned)⟩
  simp only [beginCode, finishCode, lines_append, hzeros, hlines, lines_comment_if, lines_comments,
    Option.bind_some]

/-- **A straight-line body**: its code does what the machine does. -/
theorem Match.emulated_body {body : List Instr} {before behind : List ValueType}
    (hf : Frame.Setting L count f) (hst : Stands outerS s rest f)
    (typed : Instr.BodyHasType C body before behind) (hr : C.registry = env.registry)
    (hcount : C.locals.length = count) (hstraight : body.all (Instr.isStraight env.registry) = true)
    (hc : Instr.BodyChecked env L count outerS s A f.clock body)
    (hw : Writes (Emit.body env body) f () g code) (h : Match I.domain f A vals outer ls σ)
    (hlen : vals.length = before.length) (x : Effects V W) :
    ∃ (m : Machine V W) (σ' : Nat → V), Instr.steps I env body ⟨vals, ls, x⟩ = some m ∧
      m.stack.length = behind.length ∧ I.lines code ⟨σ, x⟩ = some ⟨σ', m.effects⟩ ∧
      Match I.domain g A m.stack outer m.locals σ' := by
  -- the invariant between two instructions is that the slots match the frame there
  induction body generalizing f A s vals ls σ before code x with
  | nil =>
    obtain ⟨-, rfl, rfl⟩ := hw.unique (.pure f ())
    cases typed
    exact ⟨⟨vals, ls, x⟩, σ, rfl, hlen, rfl, h⟩
  | cons i body ih =>
    obtain ⟨hi, hbody⟩ := Bool.and_eq_true_iff.1 hstraight
    obtain ⟨f', code₁, code₂, hwi, hwr, rfl⟩ := written_cons hc.narrow hw
    have htail := hc.tail
    rw [← hwi.moved.ticks] at htail
    have hst' := stands_walk.instr i hf hst hc.head hwi.writes
    cases typed with
    | @cons _ _ _ _ between _ first second =>
      cases first with
      | @plain _ offset o params results base typed =>
        have hj : o.jumps env.registry = false := Op.jumps_of_isStraight hi
        obtain ⟨m, σ₁, hstep, hstack, hlines, hm⟩ := h.emulated_leaf hf hst typed hr hcount hj
          hc.head hwi.writes (by rw [hlen, List.length_append, List.length_reverse]) x
        obtain ⟨m', σ', hsteps, hstack', hlines', hm'⟩ := ih (hf.later hwi.moved.toLater) hst' second
          hbody htail hwr.writes hm (by rw [hstack, List.length_append, List.length_reverse])
          m.effects
        refine ⟨m', σ', ?_, hstack', ?_, hm'.mono fun l hl => leaves_of _ _ l hl⟩
        · rw [Instr.steps, hstep]
          exact hsteps
        · rw [lines_append, hlines]
          exact hlines'
      | _ => cases hi

/-! ## Functions -/

/-- The return at the end of a body gives what is on the stack. -/
theorem Match.run_return (h : Match I.domain f A vals [] ls σ) (ho : f.Owned [])
    (hlen : vals.length = f.resultTypes.length) (x : Effects V W) :
    I.run f.returnCode ⟨σ, x⟩ = some (vals.reverse, x) := by
  have hdepth : f.depth = vals.length + 1 := by
    rw [Frame.depth, h.stack.length_eq, List.append_nil]
  unfold Frame.returnCode
  by_cases hr : f.returns
  · have hall : Match I.domain f A (vals.reverse.reverse ++ []) [] ls σ := by
      rwa [List.reverse_reverse, List.append_nil]
    obtain ⟨htops, -⟩ := hall.popMany ho
    rw [List.length_reverse, hlen] at htops
    rw [if_pos hr, run, I.mapM_operand htops]
    rfl
  · have hzero : vals = [] := by
      rw [← List.length_eq_zero_iff]
      by_contra hne
      exact hr ⟨hlen ▸ hne, by omega⟩
    rw [if_neg hr, hzero]
    rfl

end Domain

/-- **The generated code of a straight-line function emulates the operand stack.** For every
interpretation of the operations, it does to the world what the stack machine does, action by action
and with the same operands, and returns its results. -/
theorem emulated_lowerFunction {V W : Type} (I : Interpretation V W) {env : Env} {id name : String}
    {function : Function} {signature : Signature} {global : Nat → ValueType × Bool}
    (hs : env.registry.types[function.type]? = some signature)
    (typed : function.HasType env.registry global signature)
    (straight : function.body.all (Instr.isStraight env.registry) = true)
    (pooled : env.options.strategy = .pooled)
    (short : Instr.bodyTicks function.body ≤ env.options.functionLimit)
    {args : List V} (hargs : args.length = signature.params.length) (w : W) :
    ∃ lowered results effects, (lowerFunction env id name function).outcome.1 = .ok lowered ∧
      lowered.params = (List.range signature.params.length).map slotName ∧
      function.performs I env signature args w = some (results, effects) ∧
      I.run lowered.code (I.enter args w) = some (results, effects) := by
  obtain ⟨hsteady, hwide, hjumps⟩ := Instr.checked_of_isStraight straight []
  have ho : env.options.oversized function.body = false := by
    rw [Options.oversized, Bool.or_eq_false_iff, decide_eq_false_iff_not]
    exact ⟨Nat.not_lt.2 short, hwide⟩
  obtain ⟨f, _, _, lowered, rfl, -, -, hparams, -, -, hy⟩ := yields_lowerFunction id name hs ho
  obtain ⟨g, code, head, hset, hchecked, hk, hresults, hcode, hhead⟩ := laid_lowerFunction
    hy.outcome hs (Instr.BodyHasType.isKnown rfl function.body typed hjumps) hsteady (.inl pooled)
  have hst := stands_entered env id function signature
  -- the declaration leaves the arguments in their slots
  obtain ⟨σ, hdeclared, hσ⟩ : ∃ σ, I.lines head (I.enter args w) = some ⟨σ, ⟨w, []⟩⟩ ∧
      ∀ l < signature.params.length, σ l = function.initially I signature args l := by
    have harg : ∀ l < signature.params.length,
        (I.enter args w).slots l = function.initially I signature args l := by
      intro l hl
      simp only [Interpretation.enter, Function.initially, List.getElem?_eq_getElem (hargs ▸ hl),
        Option.getD_some]
    rcases hhead with rfl | ⟨slots, rfl, hslots⟩
    · exact ⟨_, rfl, harg⟩
    · refine ⟨_, rfl, fun l hl => ?_⟩
      rw [if_neg (hslots l hl)]
      exact harg l hl
  have hentered : Domain.Match I.domain
      (startFrame env id (some signature) function.locals function.body).entered
      (· < signature.params.length) [] [] (function.initially I signature args) σ := by
    refine Domain.match_entered hσ fun l hl => ?_
    simp only [Function.initially, List.getElem?_eq_none (hargs ▸ hl), Option.getD_none]
  obtain ⟨m, σ', hsteps, hstack, hlines, hm⟩ := hentered.emulated_body hset hst typed rfl rfl
    straight hchecked hk.writes rfl ⟨w, []⟩
  rw [List.length_reverse] at hstack
  refine ⟨lowered, m.stack.reverse, m.effects, hy.outcome, ?_, ?_, ?_⟩
  · rw [hparams]
    exact (binds_params env id function signature).2
  · rw [Function.performs, hsteps]
    exact if_pos hstack
  · rw [hcode, Interpretation.run_append _ hdeclared, Interpretation.run_append _ hlines]
    exact hm.run_return (hk.owned hst.owned) (hstack.trans hresults.symm) m.effects

/-- A function that assigns its parameter while the old value is still on the stack, and writes the
zero of its other local to memory. -/
def overwriting : Function where
  name := none
  type := 0
  locals := [.i32]
  body := [.leaf 0 (.localGet 0), .leaf 2 (.const (.i32 1)), .leaf 4 (.localSet 0),
    .leaf 6 (.localGet 0), .leaf 8 (.binary .i32 .sub), .leaf 9 (.localGet 1),
    .leaf 11 (.store .i32 .w32 ⟨4, 0⟩), .leaf 14 (.localGet 0)]

/-- The environment of the function, with one memory. -/
def overwritingEnv : Env where
  options := { strategy := .pooled }
  registry := { types := [⟨[.i32], [.i32]⟩], memoryCount := 1 }

/-- Every operation is a subtraction, and the world counts them. -/
def subtracting : Interpretation Int Nat where
  const
    | .i32 n => n.toInt
    | _ => 0
  zero := 0
  longZero := 0
  nil := 0
  nonzero v := decide (v ≠ 0)
  act _ vs w := ([vs.headD 0 - vs.tail.headD 0], w + 1)

theorem hasType_overwriting (global : Nat → ValueType × Bool) :
    overwriting.HasType overwritingEnv.registry global ⟨[.i32], [.i32]⟩ := by
  exact .cons (.leaf [] (.localGet rfl)) (.cons (.leaf [.i32] (.const (.i32 1)))
    (.cons (.leaf [.i32] (.localSet rfl)) (.cons (.leaf [.i32] (.localGet rfl))
    (.cons (.leaf [] (.binary rfl)) (.cons (.leaf [.i32] (.localGet rfl))
    (.cons (.leaf [] (.store rfl rfl)) (.cons (.leaf [] (.localGet rfl)) .nil)))))))

theorem emulated_lowerFunction_overwriting :
    overwriting.HasType overwritingEnv.registry (fun _ => (.i32, false)) ⟨[.i32], [.i32]⟩ ∧
      ∃ lowered, (lowerFunction overwritingEnv "f" "f" overwriting).outcome.1 = .ok lowered ∧
        subtracting.run lowered.code (subtracting.enter [7] 0) = some ([1], ⟨2, [
          (.assign [.operand .missing] (toBit
            (.binary .sub (.operand .missing) (.operand .missing))), [7, 1]),
          (.run (.callHelper .memoryWrite32 [.name (memoryHandle 0),
            .binary .add (.operand .missing) (.number 4), .operand .missing]), [6, 0])]⟩) := by
  obtain ⟨lowered, results, effects, hl, -, hp, hrun⟩ :=
    @emulated_lowerFunction Int Nat subtracting overwritingEnv "f" "f" overwriting
      ⟨[.i32], [.i32]⟩ (fun _ => (.i32, false)) rfl (hasType_overwriting _) (by decide) rfl
      (by decide) [7] rfl 0
  refine ⟨hasType_overwriting _, lowered, hl, ?_⟩
  rw [hrun, ← hp]
  rfl

end Moonstack
