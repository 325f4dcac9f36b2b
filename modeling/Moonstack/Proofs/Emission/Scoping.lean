import Moonstack.Proofs.Binary.Offsets
import Moonstack.Proofs.Emission.Balance

/-!
# Scopes in the code of functions

The code of a function nests its blocks, and every `goto` in it reaches a label in the block it is
in or in one around it, the `goto`s of the head that resumes the function included.
-/

namespace Moonstack

open Moonstack.Flow

variable {b : Block} {n : Nat}

/-! ## Places to resume at -/

namespace Instr

mutual

/-- The places to resume at in an instruction, in the order of the code. -/
def saves (env : Env) (inLoop : Bool) : Instr → List ResumeSite
  | leaf offset o =>
    if o.savesPlace env && (env.registry.memory? 0).isSome then [⟨offset, inLoop⟩] else []
  | block _ _ body | ifThen _ _ body => bodySaves env inLoop body
  | loop _ _ body => bodySaves env true body
  | ifElse _ _ body other => bodySaves env inLoop body ++ bodySaves env inLoop other

def bodySaves (env : Env) (inLoop : Bool) : List Instr → List ResumeSite
  | [] => []
  | i :: rest => i.saves env inLoop ++ bodySaves env inLoop rest

end

end Instr

/-! ## Code of a part of a body -/

/-- The code jumps to its own labels and to some outside, and the places to resume at that it adds
are in a loop, or outside all blocks of the code. -/
structure Scoped (outside : List Label) (inLoop : Bool) (own : List ResumeSite)
    (before after : Array ResumeSite) (code : List Line) : Prop where
  closed : Closed outside code
  sites : after.toList = before.toList ++ own
  exposed : ∀ s ∈ own, s.inLoop = true ∨ inLoop = false ∧ Exposed (.resume s.offset) code

namespace Scoped

variable {outside : List Label} {inLoop : Bool} {own own' : List ResumeSite}
  {before mid after : Array ResumeSite} {code more : List Line} {t : Label}

/-- Code that adds no place to resume at. -/
theorem of_closed (h : Closed outside code) : Scoped outside inLoop [] before before code :=
  ⟨h, (List.append_nil _).symm, by simp⟩

theorem append (h : Scoped outside inLoop own before mid code)
    (h' : Scoped outside inLoop own' mid after more) :
    Scoped outside inLoop (own ++ own') before after (code ++ more) where
  closed := h.closed.append h'.closed
  sites := by rw [h'.sites, h.sites, List.append_assoc]
  exposed s hs := by
    obtain hs | hs := List.mem_append.1 hs
    · exact (h.exposed s hs).imp_right fun ⟨hl, he⟩ => ⟨hl, he.left more⟩
    · exact (h'.exposed s hs).imp_right fun ⟨hl, he⟩ => ⟨hl, he.right h.closed.nests⟩

theorem resolve (h : Scoped (t :: outside) inLoop own before after code) (ht : Exposed t code) :
    Scoped outside inLoop own before after code :=
  ⟨h.closed.resolve ht, h.sites, h.exposed⟩

/-- A label that the code may jump to besides. -/
theorem weaken (h : Scoped outside inLoop own before after code) (t : Label) :
    Scoped (t :: outside) inLoop own before after code :=
  ⟨h.closed.weaken fun _ hu => List.mem_cons_of_mem _ hu, h.sites, h.exposed⟩

/-- Inside a loop all places to resume at are in a loop. -/
theorem loop (h : Scoped outside true own before after code) :
    Scoped outside inLoop own before after (.forever :: (code ++ [.leave, .close])) where
  closed := h.closed.loop
  sites := h.sites
  exposed s hs := .inl ((h.exposed s hs).resolve_right fun he => by cases he.1)

end Scoped

/-! ## Branches -/

namespace Frame

variable (f : Frame)

def branchLabels : List Label := f.blocks.map Block.branchLabel

theorem nests_branchCode (depth : Nat) : Nests (f.branchCode depth) :=
  nests_of_still fun l hl n outer => by cases branchLine_of_mem hl <;> rfl

theorem targets_branchCode (depth : Nat) :
    ∀ l ∈ f.branchCode depth, ∀ t ∈ l.targets, t ∈ f.branchLabels := by
  intro l hl t ht
  cases branchLine_of_mem hl with
  | jump htarget =>
    obtain rfl := List.mem_singleton.1 ht
    exact List.mem_map_of_mem (List.mem_of_getElem? htarget)
  | copy | ret | warned | error => cases ht

theorem targets_of_frames (l : Line) (hl : l.frames = true) : ∀ t ∈ l.targets, t ∈ f.branchLabels := by
  cases l <;> first | simp [Line.targets]; done | cases hl

theorem nests_choiceCode (index : Operand) (c : Choice) : Nests (f.choiceCode index c false) ∧
    Ends (f.choiceCode index c true ++ [.close]) := by
  induction c with
  | go depth => exact ⟨f.nests_branchCode depth, ends_otherwise (f.nests_branchCode depth)⟩
  | test joins t yes no ihyes ihno =>
    have hwhole := Nests.ifThen (t.condition index) ihyes.1 ihno.2
    rw [← List.append_assoc, ← List.cons_append] at hwhole
    refine ⟨hwhole, ?_⟩
    rw [choiceCode, if_neg (by decide)]
    split
    · rw [List.cons_append, List.append_assoc]
      exact .elseIf _ ihyes.1 ihno.2
    · exact ends_otherwise hwhole

theorem closed_branchCode (depth : Nat) : Closed f.branchLabels (f.branchCode depth) :=
  .of_outside (f.nests_branchCode depth) (f.targets_branchCode depth)

theorem closed_guardedBranch (condition : Expr) (depth : Nat) :
    Closed f.branchLabels (.ifThen condition :: f.branchCode depth ++ [.close]) :=
  .of_outside (.ifThen _ (f.nests_branchCode depth) ends_close)
    (forall_guarded f.targets_of_frames (f.targets_branchCode depth) _)

theorem closed_choiceCode (index : Operand) (c : Choice) :
    Closed f.branchLabels (f.choiceCode index c false) :=
  .of_outside (f.nests_choiceCode index c).1
    (forall_choiceCode f.targets_of_frames (fun t _ => f.targets_branchCode t) index false)

end Frame

/-! ## Instructions without a body -/

theorem Flow.exposed_of_still {code : List Line} {t : Label} (ht : .label t ∈ code)
    (h : ∀ l ∈ code, ∀ n outer, l.scope n outer = some outer) : Exposed t code := by
  obtain ⟨j, hj⟩ := List.getElem?_of_mem ht
  refine ⟨j, hj, fun n outer => ?_⟩
  exact (nests_of_still (fun l hl => h l (List.mem_of_mem_take hl)) n outer).ends

/-- Lines are plain, and the places to resume at have a property. -/
def Rule.quiet (P : Array ResumeSite → Prop) : Rule where
  ok := False
  Keeps f code := P f.sites ∧ ∀ l ∈ code, l.Plain False
  plain h hk := ⟨hk.1, List.forall_mem_append.2 ⟨hk.2, List.forall_mem_singleton.2 h⟩⟩
  passed h _ hk := ⟨h.sites ▸ hk.1, hk.2⟩
  proper h := h.elim

namespace Emit

open Moonstack.Frame

variable {α : Type} {x : Emit α} {a : α} {f g : Frame} {code : List Line} {outside : List Label}
  {inLoop : Bool} {env : Env}

/-- What a computation that keeps to a rule writes. -/
theorem Writes.keeps {r : Rule} {R : α → Prop} (hx : Writes x f a g code) (hp : Passes r 0 x 0 R)
    (hf : r.Keeps f []) : r.Keeps g code := by
  obtain ⟨e, he, rfl, rfl⟩ := hx { frame := f } rfl
  exact (hp _ _ _ ⟨rfl, hf⟩ he).1.keeps

/-- A step that jumps nowhere and adds no place to resume at. -/
theorem Writes.scoped (hx : Writes x f a g code) (hp : Passes (.quiet (· = f.sites)) 0 x 0 Any) :
    Scoped outside inLoop [] f.sites g.sites code := by
  obtain ⟨hs, hplain⟩ := hx.keeps hp ⟨rfl, by simp⟩
  rw [hs]
  exact .of_closed (.of_still fun l hl => ⟨(hplain l hl).still, (hplain l hl).quiet⟩)

theorem branchLabels_moved (h : Moved n f g) : g.branchLabels = f.branchLabels := by
  rw [branchLabels, h.blocks, branchLabels]

theorem inLoop_moved (h : Moved n f g) : g.inLoop = f.inLoop := by
  rw [Frame.inLoop, h.blocks, Frame.inLoop]

theorem scoped_savePlace {handle : String} {offset : Nat}
    (hw : Writes (savePlace handle offset) f () g code) :
    Scoped outside f.inLoop [⟨offset, f.inLoop⟩] f.sites g.sites code := by
  obtain ⟨-, rfl, rfl⟩ := hw.unique (writes_savePlace handle offset f)
  have hpassed : f.Sheds f.resumed :=
    (Sheds.temporary f).trans ((Sheds.popped _).trans (.pushRegister _ _))
  have hloop : f.resumed.inLoop = f.inLoop := inLoop_moved
    ((Moved.temporary f).trans ((Moved.popped _).trans (.pushRegister _ _)))
  have hstill : ∀ l ∈ f.saveCode handle offset,
      (∀ n outer, l.scope n outer = some outer) ∧ l.targets = [] := by
    unfold saveCode
    cases f.resumed.inLoop <;> simp [Line.scope, Line.targets, Stmt.target?, warned]
  refine ⟨.of_still hstill, ?_, fun s hs => ?_⟩
  · simp [saved, hpassed.sites, hloop]
  · obtain rfl := List.mem_singleton.1 hs
    cases hl : f.inLoop with
    | true => exact .inl rfl
    | false =>
      have hlabel : .label (.resume offset) ∈ f.saveCode handle offset := by simp [saveCode]
      exact .inr ⟨rfl, exposed_of_still hlabel fun l hmem => (hstill l hmem).1⟩

/-- A jump adds no place to resume at. -/
theorem scoped_jump {f' : Frame} (hf : f'.sites = f.sites) (hq : Quiet f' g)
    (hc : Closed outside code) : Scoped outside inLoop [] f.sites g.sites code := by
  obtain ⟨warnings, log, rfl⟩ := hq
  rw [show ({ f' with warnings, log } : Frame).sites = f.sites from hf]
  exact .of_closed hc

/-- So is the code of an instruction without a body. -/
theorem scoped_op {o : Op} {offset : Nat} (hwide : o.isWide env.options.branchTableLimit = false)
    (hw : Writes (op env offset o) f () g code) :
    Scoped f.branchLabels f.inLoop ((Instr.leaf offset o).saves env f.inLoop) f.sites g.sites code := by
  have hop (hjump : o.isJump = false) (hplace : o.savesPlace env = false) :
      Scoped f.branchLabels f.inLoop [] f.sites g.sites code :=
    hw.scoped (holds_op (d := (Rule.quiet _).discipline) offset hjump False.elim False.elim
      (.inr hplace))
  have hpopped := (Sheds.popped f).sites
  cases ht : o.task env with
  | some t =>
    have hsaves : (Instr.leaf offset o).saves env f.inLoop = [] := by
      rw [Instr.saves, if_neg]
      intro h
      obtain ⟨hs, hm⟩ := Bool.and_eq_true_iff.1 h
      obtain ⟨handle, hm⟩ := Option.isSome_iff_exists.1 hm
      rw [Op.task_of_savesPlace hs hm] at ht
      cases ht
    rw [hsaves]
    exact hw.scoped (op_eq_perform ht offset ▸
      holds_task (d := (Rule.quiet _).discipline) ht False.elim False.elim)
  | none =>
    cases Op.special_of_task ht with
    | br depth =>
      obtain ⟨g', hq, hw'⟩ := branches_branch f depth
      obtain ⟨-, rfl, rfl⟩ := hw.unique hw'
      exact scoped_jump rfl hq (f.closed_branchCode depth)
    | brIf depth =>
      obtain ⟨g', hq, hw'⟩ := writes_branchIf f depth
      obtain ⟨-, rfl, rfl⟩ := hw.unique hw'
      rw [← branchLabels_moved (.popped f)]
      exact scoped_jump hpopped hq (f.popped.closed_guardedBranch _ depth)
    | brTable targets fallback =>
      have hlimit : ¬ env.options.branchTableLimit < targets.length + 1 := by
        simpa [Op.isWide] using hwide
      obtain ⟨g', hq, hw', -⟩ := @writes_branchTable f env targets fallback hlimit
      obtain ⟨-, rfl, rfl⟩ := hw.unique hw'
      rw [← branchLabels_moved (.popped f)]
      exact scoped_jump hpopped hq (f.popped.closed_choiceCode _ _)
    | setjmp hs hm =>
      rw [Instr.saves, hs, hm]
      exact scoped_savePlace (op_eq_savePlace hs hm offset ▸ hw)
    | ret | localGet | localSet | localTee | convert => exact hop rfl rfl

/-! ## Instructions -/

variable (f)

theorem scoped_beginCode (i : Instr) :
    Scoped outside inLoop [] f.sites f.begun.sites (f.beginCode i) :=
  (keeps_begin i f []).writes.scoped (passes_begin i False.elim)

theorem scoped_finishCode : Scoped outside inLoop [] f.sites f.finished.sites f.finishCode :=
  (keeps_finish f []).writes.scoped passes_finish

theorem scoped_settleCode (b : Block) :
    Scoped outside inLoop [] f.sites (f.settled b).sites (f.settleCode b) :=
  (keeps_settleArm b f []).writes.scoped (holds_settleArm (d := (Rule.quiet _).discipline) b)

theorem sites_turned (b : Block) : (f.turned b).sites = (f.tick.settled b).sites := by
  rw [turned, inAlternative]
  split <;> rfl

/-- The end of a block, up to its label. -/
theorem scoped_endCode (b : Block) :
    Scoped outside inLoop [] f.sites (f.closed b).sites (f.endCode b) := by
  have hwarned : Scoped outside inLoop [] (f.tick.settled b).sites (f.closed b).sites
      (if lacksValue b then [warned (.valueWithoutElse b.name)] else []) := by
    have hended : (f.ended b).sites = (f.tick.settled b).sites :=
      ended_cases rfl fun _ => rfl
    have hclosed : (f.closed b).sites = (f.tick.settled b).sites :=
      closed_cases hended fun _ => (Sheds.pushRegister _ _).sites.trans hended
    rw [hclosed]
    split
    · exact .of_closed (.cons (fun _ _ => rfl) (List.forall_mem_nil _) .nil)
    · exact .of_closed .nil
  exact (scoped_settleCode f.tick b).append hwarned

theorem scoped_label (t : Label) (sites : Array ResumeSite) :
    Scoped outside inLoop [] sites sites [.label t] :=
  .of_closed (.cons (fun _ _ => rfl) (List.forall_mem_nil _) .nil)

/-- The begin of an `if`, whose first line skips its first arm. -/
theorem scoped_skip (i : Instr) (t : Label) (outside : List Label) :
    Scoped (t :: outside) f.inLoop [] f.sites f.begun.popped.sites
      (f.beginCode i ++ [skipLine f.begun.top t]) := by
  rw [(Sheds.popped f.begun).sites]
  have htarget : ∀ u ∈ (skipLine f.begun.top t).targets, u ∈ t :: outside :=
    List.forall_mem_singleton.2 List.mem_cons_self
  exact (scoped_beginCode f i).append (.of_closed (.cons (fun _ _ => rfl) htarget .nil))

/-- The turn from the first arm of an `if` to its alternative. -/
theorem scoped_turnCode (hb : .fin b.name ∈ outside) :
    Scoped outside inLoop [] f.sites (f.turned b).sites (f.turnCode b) := by
  rw [sites_turned]
  refine (scoped_settleCode f.tick b).append (.of_closed ?_)
  exact .cons (fun _ _ => rfl) (List.forall_mem_singleton.2 hb)
    (.cons (fun _ _ => rfl) (List.forall_mem_nil _) .nil)

theorem exposed_turnCode (b : Block) : Exposed (.alternative b.name) (f.turnCode b) := by
  have hsettle : Scoped [] false [] f.tick.sites (f.tick.settled b).sites (f.tick.settleCode b) :=
    scoped_settleCode f.tick b
  have hjump : Nests [.stmt (.goto (.fin b.name))] :=
    nests_of_still (List.forall_mem_singleton.2 fun _ _ => rfl)
  exact ((exposed_label (.alternative b.name)).right hjump).right hsettle.closed.nests

variable {f}

/-- Code from the opening of a block that is no loop, with the end of the block. -/
theorem scoped_closeCode {before : Array ResumeSite} {own : List ResumeSite}
    (hk : b.name.kind ≠ .loop) (h : Scoped (.fin b.name :: outside) inLoop own before g.sites code) :
    Scoped outside inLoop own before (g.closed b).finished.sites
      (code ++ (g.closeCode b ++ (g.closed b).finishCode)) := by
  have hend : Scoped (.fin b.name :: outside) inLoop [] g.sites (g.closed b).sites (g.endCode b) :=
    scoped_endCode g b
  have hlabel := exposed_label (.fin b.name)
  unfold closeCode
  rw [if_neg hk, List.append_nil, ← own.append_nil]
  refine (h.append ((hend.append (scoped_label _ _)).append (scoped_finishCode _))).resolve ?_
  exact ((hlabel.right hend.closed.nests).left _).right h.closed.nests

/-- What stands inside a block that is no loop. -/
theorem scope_within {k : Nat} {f₀ : Frame} (hm : Moved k f f₀) (hb : Within n f₀ b g)
    (hk : b.name.kind ≠ .loop) :
    g.branchLabels = .fin b.name :: f.branchLabels ∧ g.inLoop = f.inLoop := by
  constructor
  · rw [branchLabels, hb.blocks, List.map_cons, branchLabel_of_ne_loop hk, hm.blocks, branchLabels]
  · rw [Frame.inLoop, hb.blocks, List.any_cons, hm.blocks, Frame.inLoop]
    simp [hk]

/-- Code behind the opening of a block that is no loop. -/
theorem scoped_opened {k : Nat} {f₀ : Frame} {name : BlockName} {result : Option ValueType}
    {inner : List Instr} (hm : Moved k f f₀) (hb : (f₀.openBlock name result).1 = b)
    (hk : b.name.kind ≠ .loop)
    (h : Scoped (f₀.openBlock name result).2.branchLabels (f₀.openBlock name result).2.inLoop
      (Instr.bodySaves env (f₀.openBlock name result).2.inLoop inner)
      (f₀.openBlock name result).2.sites g.sites code) :
    Scoped (.fin b.name :: f.branchLabels) f.inLoop (Instr.bodySaves env f.inLoop inner) f₀.sites
      g.sites code := by
  obtain ⟨hlabels, hloop⟩ := scope_within hm (Within.opened f₀ name result) (hb ▸ hk)
  rwa [hlabels, hloop, (Sheds.openBlock _ _ _).sites, hb] at h

mutual

/-- The code of an instruction is closed but for branches to open blocks. -/
theorem scoped_instr : (i : Instr) → i.hasWide env.options.branchTableLimit = false →
    {f g : Frame} → {code : List Line} → Writes (instr env i) f () g code →
    Scoped f.branchLabels f.inLoop (i.saves env f.inLoop) f.sites g.sites code
  | .leaf offset o, hwide, f, g, code, hw => by
    obtain ⟨_, g', lines, ho⟩ := succeeds_op f.begun [] hwide offset
    obtain ⟨-, rfl, rfl⟩ := hw.unique (writes_leaf ho.writes)
    have hmoved := moved_begun f
    have hop := scoped_op hwide ho.writes
    rw [branchLabels_moved hmoved, inLoop_moved hmoved] at hop
    simpa using (scoped_beginCode f _).append (hop.append (scoped_finishCode g'))
  | .block offset result inner, hwide, f, g, code, hw => by
    obtain ⟨b, g', lines, hb, hi, rfl, rfl⟩ := written_block hwide hw
    have hk : b.name.kind ≠ .loop := by simp [← hb, name_openBlock]
    have hbody := scoped_opened (moved_begun f) hb hk (scoped_body inner hwide hi.keeps.writes)
    rw [← List.append_assoc]
    exact scoped_closeCode hk ((scoped_beginCode f _).append hbody)
  | .loop offset result inner, hwide, f, g, code, hw => by
    obtain ⟨b, g', lines, hb, hi, rfl, rfl⟩ := written_loop hwide hw
    have hname : b.name = ⟨.loop, offset⟩ := by rw [← hb, name_openBlock]
    have hopen := Within.opened f.begun ⟨.loop, offset⟩ result
    rw [hb] at hopen
    have hbody := scoped_body inner hwide hi.keeps.writes
    rw [branchLabels, hopen.blocks, List.map_cons, (moved_begun f).blocks, Block.branchLabel,
      hname, Frame.inLoop, hopen.blocks, List.any_cons, hname,
      (Sheds.openBlock _ _ _).sites] at hbody
    -- the label in front of the loop is in no block, so the branches inside reach it
    have hloop : Scoped (.start b.name :: f.branchLabels) f.inLoop
        (Instr.bodySaves env true inner ++ []) f.begun.sites (g'.closed b).sites
        (.forever :: ((lines ++ g'.endCode b) ++ [.leave, .close])) :=
      Scoped.loop (Scoped.append (hname ▸ hbody) (scoped_endCode g' b))
    have hstart : Scoped (.start b.name :: f.branchLabels) f.inLoop [] f.sites f.begun.sites
        (f.beginCode (.loop offset result inner)) := scoped_beginCode f _
    have hall := hstart.append ((scoped_label (.start b.name) _).append
      (hloop.append ((scoped_label (.fin b.name) _).append (scoped_finishCode (g'.closed b)))))
    have hexposed := ((exposed_label (.start b.name)).left
      (.forever :: ((lines ++ g'.endCode b) ++ [.leave, .close]) ++
        ([.label (.fin b.name)] ++ (g'.closed b).finishCode))).right hstart.closed.nests
    have hcode := hall.resolve hexposed
    rw [closeCode, hname, if_pos rfl]
    simpa [hname, Instr.saves] using hcode
  | .ifThen offset result inner, hwide, f, g, code, hw => by
    obtain ⟨b, g', lines, hb, hi, rfl, rfl⟩ := written_ifThen hwide hw
    have hmoved := (moved_begun f).trans (.popped f.begun)
    have hk : b.name.kind ≠ .loop := by simp [← hb, name_openBlock]
    have hbody := scoped_opened hmoved hb hk (scoped_body inner hwide hi.keeps.writes)
    have hfront := scoped_skip f (.ifThen offset result inner) (.fin b.name) f.branchLabels
    have hall := scoped_closeCode hk (hfront.append hbody)
    simpa [Instr.saves] using hall
  | .ifElse offset result inner other, hwide, f, g, code, hw => by
    rw [Instr.hasWide, Bool.or_eq_false_iff] at hwide
    obtain ⟨b, g₁, lines₁, g₂, lines₂, hb, hi, ho, rfl, rfl⟩ := written_ifElse hwide.1 hwide.2 hw
    have hmoved := (moved_begun f).trans (.popped f.begun)
    have hk : b.name.kind ≠ .loop := by simp [← hb, name_openBlock]
    have hfirst := scoped_opened hmoved hb hk (scoped_body inner hwide.1 hi.keeps.writes)
    obtain ⟨n, hn⟩ := hi.within
    obtain ⟨hlabels, hloop⟩ := scope_within hmoved hn.turned hk
    have hsecond := scoped_body other hwide.2 ho.keeps.writes
    rw [hlabels, hloop] at hsecond
    have hfront := scoped_skip f (.ifElse offset result inner other) (.alternative b.name)
      (.fin b.name :: f.branchLabels)
    have hturn : Scoped (.alternative b.name :: .fin b.name :: f.branchLabels) f.inLoop [] g₁.sites
        (g₁.turned b).sites (g₁.turnCode b) :=
      scoped_turnCode g₁ (List.mem_cons_of_mem _ List.mem_cons_self)
    have harms := hfront.append ((hfirst.weaken (.alternative b.name)).append
      (hturn.append (hsecond.weaken (.alternative b.name))))
    have hexposed := (((exposed_turnCode g₁ b).left lines₂).right hfirst.closed.nests).right
      hfront.closed.nests
    have hall := scoped_closeCode (b := { b with inElse := true }) hk (harms.resolve hexposed)
    simpa [Instr.saves] using hall

/-- **The code of a body is closed** but for branches to the blocks that are open there. -/
theorem scoped_body : (body : List Instr) →
    Instr.bodyHasWide env.options.branchTableLimit body = false →
    {f g : Frame} → {code : List Line} → Writes (Emit.body env body) f () g code →
    Scoped f.branchLabels f.inLoop (Instr.bodySaves env f.inLoop body) f.sites g.sites code
  | [], _, f, g, code, hw => by
    obtain ⟨-, rfl, rfl⟩ := hw.unique (.pure f ())
    exact .of_closed .nil
  | i :: rest, hwide, f, g, code, hw => by
    obtain ⟨h, lines, more, hi, hr, rfl⟩ := written_cons hwide hw
    rw [Instr.bodyHasWide, Bool.or_eq_false_iff] at hwide
    have hinstr := scoped_instr i hwide.1 hi.writes
    have hrest := scoped_body rest hwide.2 hr.writes
    rw [branchLabels_moved hi.moved, inLoop_moved hi.moved] at hrest
    exact hinstr.append hrest

end

end Emit

/-! ## The header -/

/-- The line that goes on at a place to resume at. -/
def dispatchLine (site : ResumeSite) (n : Nat) : Line :=
  .arm (n == 0)
    (.binary .eq (.field (.name jumpRecord) "target") (.string (Label.resume site.offset).text))
    (if site.inLoop then .run (.error "cannot resume a setjmp inside a loop")
      else .goto (.resume site.offset))

def restoreLines (slots : Nat) : List Line :=
  (List.range slots).map fun n =>
    .stmt (.assign [.slot n] (.field (.field (.name jumpRecord) "data") (slotName n)))

theorem code_resumeHeader (slots : Nat) (sites : List ResumeSite) :
    (resumeHeader slots sites).map Placed.line = .ifThen (.name jumpRecord) ::
      ((restoreLines slots ++ ((sites.zipIdx.map fun p => dispatchLine p.1 p.2) ++ [.close])) ++
        [.close]) := by
  simp [resumeHeader, restoreLines, dispatchLine, Function.comp_def]

theorem nests_restoreLines (slots : Nat) : Nests (restoreLines slots) := by
  refine nests_of_still fun l hl n outer => ?_
  obtain ⟨k, -, rfl⟩ := List.mem_map.1 hl
  rfl

theorem ends_dispatch (sites : List ResumeSite) (n : Nat) :
    Ends (((sites.zipIdx (n + 1)).map fun p => dispatchLine p.1 p.2) ++ [.close]) := by
  induction sites generalizing n with
  | nil => exact ends_close
  | cons site rest ih => exact .arm _ _ (ih (n + 1))

theorem nests_resumeHeader (slots : Nat) {sites : List ResumeSite} (h : sites ≠ []) :
    Nests ((resumeHeader slots sites).map Placed.line) := by
  rw [code_resumeHeader]
  cases sites with
  | nil => contradiction
  | cons site rest =>
    have harms : Nests (((site :: rest).zipIdx.map fun p => dispatchLine p.1 p.2) ++ [.close]) :=
      .arm _ _ (ends_dispatch rest 0)
    exact .ifThen _ ((nests_restoreLines slots).append harms) ends_close

/-- Where the header can go on. -/
def resumeLabels (sites : List ResumeSite) : List Label :=
  (sites.filter (!·.inLoop)).map (.resume ·.offset)

theorem targets_resumeHeader (slots : Nat) (sites : List ResumeSite) :
    ∀ l ∈ (resumeHeader slots sites).map Placed.line, ∀ t ∈ l.targets, t ∈ resumeLabels sites := by
  rw [code_resumeHeader]
  intro l hl t ht
  simp only [List.mem_cons, List.mem_append, List.not_mem_nil, or_false, restoreLines,
    List.mem_map] at hl
  obtain rfl | (⟨n, -, rfl⟩ | ⟨⟨site, n⟩, hsite, rfl⟩ | rfl) | rfl := hl
  · cases ht
  · cases ht
  · have hmem : site ∈ sites := List.fst_mem_of_mem_zipIdx hsite
    cases hloop : site.inLoop with
    | true => simp [dispatchLine, hloop, Line.targets, Stmt.target?] at ht
    | false =>
      simp only [dispatchLine, hloop, Line.targets, Stmt.target?] at ht
      obtain rfl := List.mem_singleton.1 ht
      exact List.mem_map_of_mem (List.mem_filter.2 ⟨hmem, by rw [hloop]; rfl⟩)
  · cases ht
  · cases ht

theorem label_header (f : Frame) : ((header f).map Placed.line).filterMap Line.label? = [] := by
  rw [List.filterMap_eq_nil_iff]
  intro l hl
  obtain ⟨p, hp, rfl⟩ := List.mem_map.1 hl
  rw [header, List.mem_append] at hp
  obtain hp | hp := hp
  · split at hp
    · cases hp
    · obtain rfl := List.mem_singleton.1 hp
      rfl
  · split at hp
    · cases hp
    · simp only [resumeHeader, List.mem_append, List.mem_cons, List.not_mem_nil, or_false,
        List.mem_map] at hp
      obtain ((rfl | ⟨n, -, rfl⟩) | ⟨⟨site, n⟩, -, rfl⟩) | rfl | rfl := hp <;> rfl

/-- The header jumps to places to resume at that are in no loop. -/
theorem closed_header (f : Frame) :
    Closed (resumeLabels f.sites.toList) ((header f).map Placed.line) := by
  rw [header, List.map_append]
  refine .append ?_ ?_
  · split
    · exact .nil
    · exact .cons (fun _ _ => rfl) (List.forall_mem_nil _) .nil
  · split
    · exact .nil
    · rename_i hs
      exact .of_outside (nests_resumeHeader _ (by simpa using hs)) (targets_resumeHeader _ _)

/-! ## Labels as texts -/

namespace Label

/-- The word that the text of a label begins with. -/
def stem : Label → String
  | start b | alternative b | fin b => b.kind.word
  | resume _ => "jmp"

/-- What the text of a label ends with, behind the offset. -/
def tail : Label → String
  | start _ => "_start"
  | alternative _ => "_else"
  | fin _ => "_fin"
  | resume _ => ""

theorem text_eq (l : Label) : l.text = l.stem ++ ("_" ++ (toString l.offset ++ l.tail)) := by
  have hblock (b : BlockName) : b.text = b.kind.word ++ ("_" ++ toString b.offset) :=
    String.append_assoc
  cases l with
  | start b | alternative b | fin b =>
    simp only [text, stem, tail, offset, hblock, String.append_assoc]
  | resume offset =>
    have hstem : (resume offset).text = "jmp" ++ "_" ++ toString offset := rfl
    rw [hstem, String.append_assoc]
    simp only [stem, tail, Label.offset, String.append_empty]

/-- Is the character part of a word or a number in a label? -/
def isInner (c : Char) : Bool := c != '_'

theorem isInner_stem (l : Label) : ∀ c ∈ l.stem.toList, isInner c = true := by
  have hword : ∀ k : BlockKind, ∀ c ∈ k.word.toList, isInner c = true := by
    intro k
    cases k <;> exact List.all_eq_true.1 (by decide)
  cases l with
  | resume offset => exact List.all_eq_true.1 (by decide : "jmp".toList.all isInner = true)
  | start b | alternative b | fin b => exact hword b.kind

theorem isInner_toString (n : Nat) : ∀ c ∈ (toString n).toList, isInner c = true := by
  intro c hc
  rw [Nat.toString_eq_ofList_toDigits, String.toList_ofList] at hc
  have hd := Nat.isDigit_of_mem_toDigits (by omega) (by omega) hc
  unfold isInner
  rw [bne_iff_ne]
  rintro rfl
  cases hd

theorem takeWhile_tail (l : Label) : l.tail.toList.takeWhile isInner = [] := by
  cases l <;> simp [tail, isInner]

/-- A text is split where the first underscore stands. -/
theorem split_unique {a a' b b' : List Char} (ha : ∀ c ∈ a, isInner c = true)
    (ha' : ∀ c ∈ a', isInner c = true) (hb : b.takeWhile isInner = [])
    (hb' : b'.takeWhile isInner = []) (h : a ++ b = a' ++ b') : a = a' ∧ b = b' := by
  have hfront := congrArg (List.takeWhile isInner) h
  rw [List.takeWhile_append_of_pos ha, List.takeWhile_append_of_pos ha', hb, hb', List.append_nil,
    List.append_nil] at hfront
  subst hfront
  exact ⟨rfl, List.append_cancel_left h⟩

theorem toString_injective {m : Nat} (h : (toString m).toList = (toString n).toList) : m = n := by
  simp only [Nat.toString_eq_ofList_toDigits, String.toList_ofList] at h
  have hread := congrArg (fun cs => Nat.ofDigitChars 10 cs 0) h
  simpa only [Nat.ofDigitChars_ten_toDigits] using hread

theorem blockName_inj {b b' : BlockName} (hk : b.kind.word = b'.kind.word)
    (ho : b.offset = b'.offset) : b = b' := by
  obtain ⟨kind, offset⟩ := b
  obtain ⟨kind', offset'⟩ := b'
  cases ho
  cases kind <;> cases kind' <;> first | rfl | simp [BlockKind.word] at hk

/-- Different labels have different texts. -/
theorem text_injective : Function.Injective text := by
  intro s t h
  rw [text_eq, text_eq] at h
  have hlists := congrArg String.toList h
  simp only [String.toList_append] at hlists
  obtain ⟨hstem, hrest⟩ := split_unique s.isInner_stem t.isInner_stem rfl rfl hlists
  obtain ⟨hoffset, htail⟩ := split_unique (isInner_toString _) (isInner_toString _)
    s.takeWhile_tail t.takeWhile_tail (List.append_cancel_left hrest)
  have hnumber := toString_injective hoffset
  rw [String.toList_inj] at hstem htail
  -- the tails tell the constructors apart
  cases s <;> cases t <;> first
    | exact congrArg _ (blockName_inj hstem hnumber)
    | exact congrArg resume hnumber
    | simp [tail] at htail

end Label

/-! ## Functions -/

/-- What Lua asks of the control flow in the code of a function. -/
structure Flow.WellScoped (code : List Line) : Prop where
  /-- blocks are opened and closed in pairs, and arms follow arms -/
  nested : scopes 0 [] code = some []
  /-- every label stands at one place -/
  labels : ((code.filterMap Line.label?).map Label.text).Nodup
  /-- a `goto` has its label in the block it is in or in one around it -/
  reach : ∀ i l, code[i]? = some l → ∀ t ∈ l.targets, ∃ j around own,
    code[j]? = some (.label t) ∧ scopes 0 [] (code.take j) = some around ∧
      scopes 0 [] (code.take (i + 1)) = some (own ++ around)

theorem Flow.Closed.wellScoped {code : List Line} (h : Closed [] code)
    (hl : (code.filterMap Line.label?).Nodup) : WellScoped code where
  nested := (h.nests 0 []).ends
  labels := hl.map Label.text_injective
  reach i l hi t ht := by
    obtain hout | ⟨j, hj, hs⟩ := h.reach i l hi t ht
    · cases hout
    · obtain ⟨around, own, ha, ho⟩ := hs 0 []
      exact ⟨j, around, own, hj, ha, ho⟩

section

variable {env : Env} {id name : String} {function : Function} {lowered : Lowered}

/-- The indentation at the end of a function is the one at its start. -/
theorem indent_function {count : Nat} {code : List Instr} {start e : Emission}
    {params : List String} (h : Emit.function env count code start = .ok params e) :
    e.indent = start.indent := by
  have hpass : Emit.Passes .free start.indent (Emit.function env count code) start.indent Emit.Any :=
    Emit.holds_function Rule.wide_free.full False.elim count False.elim _
  exact (hpass _ _ _ ⟨rfl, trivial⟩ h).1.indent

/-- The code of a function behind its header. -/
theorem scoped_function {signature : Signature} {g : Frame} {code : List Line}
    (ho : env.options.oversized function.body = false) (hw : Emit.Writes (Emit.body env function.body)
      (function.startFrame env id signature).entered () g code) :
    Scoped [] false (Instr.bodySaves env false function.body) #[] g.left.sites
      (code ++ g.returnCode) := by
  rw [Options.oversized, Bool.or_eq_false_iff] at ho
  obtain ⟨hmoved, -, hsites⟩ := moved_entered env id function signature
  have hbody := Emit.scoped_body function.body ho.2 hw
  rw [Emit.branchLabels_moved hmoved, Emit.inLoop_moved hmoved, hsites] at hbody
  have hreturn : Scoped [] false [] g.sites g.left.sites g.returnCode :=
    (Emit.writes_finishFunction g).scoped
      (Emit.holds_finishFunction (d := (Rule.quiet _).discipline))
  rw [← List.append_nil (Instr.bodySaves _ _ _)]
  exact hbody.append hreturn

/-- Every `goto` of a function reaches a label, the header included. -/
theorem closed_lowerFunction (h : (lowerFunction env id name function).outcome.1 = .ok lowered) :
    Closed [] lowered.code := by
  obtain ⟨signature, f, g, code, -, ho, rfl, hw, hlines, -, hheader⟩ := written_lowerFunction h
  have hcode := scoped_function ho hw
  have hhead := closed_header g.left
  rw [Lowered.code, List.map_append, hlines, hheader]
  refine (hhead.append (hcode.closed.weaken (List.forall_mem_nil _))).resolveAll fun t ht => ?_
  -- the header goes to places that are in no loop, and those are in no block of the body
  obtain ⟨s, hs, rfl⟩ := List.mem_map.1 ht
  obtain ⟨hs, hloop⟩ := List.mem_filter.1 hs
  obtain hin | ⟨-, hexposed⟩ := hcode.exposed s (by simpa [hcode.sites] using hs)
  · simp [hin] at hloop
  · exact hexposed.right hhead.nests

/-- Instructions at different places have different labels. -/
theorem nodup_lowerFunction (hd : (Instr.bodyOffsets function.body).Nodup)
    (h : (lowerFunction env id name function).outcome.1 = .ok lowered) :
    (lowered.code.filterMap Line.label?).Nodup := by
  obtain ⟨signature, f, g, code, -, ho, rfl, hw, hlines, -, hheader⟩ := written_lowerFunction h
  rw [Options.oversized, Bool.or_eq_false_iff] at ho
  obtain ⟨_, g', code', hk⟩ := Emit.succeeds_body ho.2
    (function.startFrame env id signature).entered
  obtain ⟨-, rfl, rfl⟩ := hw.unique hk.writes
  have hreturn : g.returnCode.filterMap Line.label? = [] := by
    unfold Frame.returnCode
    split <;> rfl
  rw [Lowered.code, List.map_append, List.filterMap_append, hlines, hheader, label_header,
    List.nil_append, List.filterMap_append, hreturn, List.append_nil]
  exact (Instr.nodup_bodyLabels _ hd).sublist hk.shape.labels

/-- **The control flow of a function is well formed.** Its blocks nest, every label stands once, and
every `goto` has its label in the block it is in or in one around it; the writing ends at the
indentation it began at. The text is these lines, behind their indentations. -/
theorem wellScoped_lowerFunction (m : Module) (options : Options) {s : Stream}
    (hs : (s.operators.map Prod.fst).Pairwise (· < ·)) (hbody : s.instructions = .ok function.body)
    (h : (lowerFunction ⟨options, (Registry.ofModule m).2⟩ id name function).outcome.1 =
      .ok lowered) :
    WellScoped lowered.code ∧
      (∃ signature params e, (Registry.ofModule m).2.types[function.type]? = some signature ∧
        Emit.function ⟨options, (Registry.ofModule m).2⟩ signature.params.length function.body
          { frame := startFrame ⟨options, (Registry.ofModule m).2⟩ id (some signature)
              function.locals function.body, indent := 0 } = .ok params e ∧
        lowered = .ofEmission signature params e ∧ e.indent = 0) ∧
      lowered.text = joinLines ((lowered.header ++ lowered.lines).map Placed.row) ∧
      ((∀ name ∈ Instr.bodyUnsupportedNames function.body, OneLine name) →
        linesOf lowered.text = (lowered.header ++ lowered.lines).map Placed.row) := by
  have hdistinct : (s.operators.map Prod.fst).Nodup := hs.imp Nat.ne_of_lt
  have hlabels := nodup_lowerFunction (s.nodup_offsets hbody hdistinct) h
  obtain ⟨signature, params, e, hsig, he, hl⟩ := emitted_lowerFunction h
  refine ⟨(closed_lowerFunction h).wellScoped hlabels,
    ⟨signature, params, e, hsig, he, hl, indent_function he⟩, lowered.text_eq, fun hnames => ?_⟩
  exact linesOf_lowerFunction (Registry.tidy_ofModule m) hnames h

/-- A place to resume at inside a block, then an `if` with an alternative in which a loop branches to
its start and, by a table, out of everything. -/
def nestedStream : Stream where
  operators := [
    (0, .block .empty), (2, .leaf (.const (.i32 0))), (4, .leaf (.call 0)), (6, .cond .empty),
    (8, .leaf (.br 1)), (10, .otherwise), (12, .loop .empty), (14, .leaf (.const (.i32 1))),
    (16, .leaf (.brIf 0)), (18, .leaf (.const (.i32 2))), (20, .leaf (.brTable [0, 1, 2] 3)),
    (22, .finish), (24, .finish), (26, .finish), (28, .finish)]
  broken := false

def nestedFunction : Function where
  name := none
  type := 1
  locals := []
  body := [
    .block 0 none [
      .leaf 2 (.const (.i32 0)), .leaf 4 (.call 0),
      .ifElse 6 none [.leaf 8 (.br 1)] [
        .loop 12 none [
          .leaf 14 (.const (.i32 1)), .leaf 16 (.brIf 0), .leaf 18 (.const (.i32 2)),
          .leaf 20 (.brTable [0, 1, 2] 3)]]]]

theorem wellScoped_lowerFunction_nested :
    let m : Module := {
      types := [⟨[.i32], [.i32]⟩, ⟨[], []⟩]
      fields := [.imported ⟨"env", "setjmp", .function 0⟩, .memory ⟨1, none⟩,
        .function nestedFunction] }
    (nestedStream.operators.map Prod.fst).Pairwise (· < ·) ∧
      nestedStream.instructions = .ok nestedFunction.body ∧
      ∃ lowered, (lowerFunction ⟨{}, (Registry.ofModule m).2⟩ "f" "f" nestedFunction).outcome.1 =
        .ok lowered ∧ WellScoped lowered.code ∧
        linesOf lowered.text = (lowered.header ++ lowered.lines).map Placed.row := by
  intro m
  have hs : (nestedStream.operators.map Prod.fst).Pairwise (· < ·) := by decide
  have hbody : nestedStream.instructions = .ok nestedFunction.body := rfl
  have hnames : ∀ name ∈ Instr.bodyUnsupportedNames nestedFunction.body, OneLine name := nofun
  obtain ⟨f, g, code, lowered, -, -, -, -, -, -, hy⟩ :=
    @yields_lowerFunction ⟨{}, (Registry.ofModule m).2⟩ nestedFunction ⟨[], []⟩ "f" "f" rfl
      (by decide)
  obtain ⟨hscoped, -, -, hlines⟩ := wellScoped_lowerFunction m {} hs hbody hy.outcome
  exact ⟨hs, hbody, lowered, hy.outcome, hscoped, hlines hnames⟩

end

end Moonstack
