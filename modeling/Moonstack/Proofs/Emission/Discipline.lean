import Moonstack.Function.Lowered
import Moonstack.Proofs.Emission.Steps
import Moonstack.Proofs.Frame.Mute
import Moonstack.Proofs.Frame.Proper

/-!
# One walk through the writing of code

Some properties hold of all computations that write code because every single step has them. Such a
property is an `Emit.Discipline`: what it asks for is said once for each kind of step, and that
every instruction and every body has it is proved once, for all disciplines.

Under the condition `d.ok` operands are proper and lines are clear. Lines of single instructions are
`Line.Plain`, and frames are only changed in ways that `Frame.Passed` describes, that keep their
texts in order, and that do not depend on debug options (`Frame.Deaf`).
-/

namespace Moonstack

variable {u : Frame → Frame}

/-- Does the instruction jump inside the function? -/
def Op.isJump : Op → Bool
  | br _ | brIf _ | brTable _ _ => true
  | _ => false

mutual

/-- The names of the instructions that have no code, in order. -/
def Instr.unsupportedNames : Instr → List String
  | leaf _ (.unsupported name) => [name]
  | leaf _ _ => []
  | block _ _ body | loop _ _ body | ifThen _ _ body => bodyUnsupportedNames body
  | ifElse _ _ body other => bodyUnsupportedNames body ++ bodyUnsupportedNames other

/-- The names of the instructions of a body that have no code, in order. -/
def Instr.bodyUnsupportedNames : List Instr → List String
  | [] => []
  | i :: rest => i.unsupportedNames ++ bodyUnsupportedNames rest

end

theorem Warning.oneLine_message (w : Warning) (h : ∀ name, w = .unsupported name → OneLine name) :
    OneLine w.message := by
  have hblock : ∀ b : BlockName, OneLine b.text := by
    intro b
    have hword : OneLine b.kind.word := by cases b.kind <;> exact .ofList (by decide)
    exact (hword.append (t := "_") (.ofList (by decide))).append (oneLine_toString _)
  have hnumber : ∀ (s : String) (n : Nat), OneLine s → OneLine (s ++ toString n) :=
    fun s n hs => hs.append (oneLine_toString n)
  cases w with
  | unsupported name =>
    exact (.ofList (by decide) : OneLine "unsupported instruction ").append (h name rfl)
  | readOfUnknownLocal | writeToUnknownLocal | readOfUnknownGlobal | writeToUnknownGlobal
  | missingMemory | unresolvedBranch | unknownFunction | unknownType | missingTable =>
    exact hnumber _ _ (.ofList (by decide))
  | extraValues block count =>
    exact (((hblock block).append (t := " leaves ") (.ofList (by decide))).append
      (oneLine_toString count)).append (.ofList (by decide))
  | valueWithoutElse block => exact (hblock block).append (.ofList (by decide))
  | jumpWithoutMemory => exact .ofList (by decide)
  | resumeInLoop offset =>
    exact ((.ofList (by decide) : OneLine "setjmp at ").append
      (Label.neutral_text _).oneLine).append (.ofList (by decide))

/-- Only the names of instructions without code come from elsewhere. -/
theorem Op.oneLine_mnemonic (o : Op) (h : ∀ name, o = .unsupported name → OneLine name) :
    OneLine o.mnemonic := by
  have htype : ∀ t : ValueType, OneLine t.name := fun t => by
    cases t <;> exact .ofList (by decide)
  cases o with
  | unsupported name => exact h name rfl
  | load type width signed arg =>
    have hsign : OneLine (if signed then "s" else "u") := by
      cases signed <;> exact .ofList (by decide)
    rw [Op.mnemonic]
    split
    · exact (htype type).append (.ofList (by decide))
    · exact ((((htype type).append (.ofList (by decide))).append (oneLine_toString _)).append
        (.ofList (by decide))).append hsign
  | store type width arg =>
    rw [Op.mnemonic]
    split
    · exact (htype type).append (.ofList (by decide))
    · exact ((htype type).append (.ofList (by decide))).append (oneLine_toString _)
  | const | eqz => exact (htype _).append (.ofList (by decide))
  | compare type op | unary type op | binary type op =>
    have hop : OneLine op.name := by cases op <;> exact .ofList (by decide)
    exact ((htype type).append (.ofList (by decide))).append hop
  | convert op =>
    cases op with
    | truncS | truncU | convertS | convertU =>
      exact (((htype _).append (.ofList (by decide))).append (htype _)).append (.ofList (by decide))
    | reinterpret => exact ((htype _).append (.ofList (by decide))).append (htype _)
    | _ => exact .ofList (by decide)
  | _ =>
    rw [Op.mnemonic]
    exact .ofList (by decide)

theorem Instr.oneLine_mnemonic (i : Instr) (h : ∀ name ∈ i.unsupportedNames, OneLine name) :
    OneLine i.mnemonic := by
  cases i with
  | leaf offset o =>
    refine o.oneLine_mnemonic fun name ho => h name ?_
    subst ho
    simp [unsupportedNames]
  | _ =>
    rw [mnemonic]
    exact .ofList (by decide)

namespace Emit

open Moonstack.Frame

variable {α β : Type}

/-- Any value will do. -/
abbrev Any : α → Prop := fun _ => True

/-! ## Steps of the frame -/

/-- The computation changes the frame only, and cannot fail. -/
def Turns (x : Emit α) (a : Frame → α) (u : Frame → Frame) : Prop :=
  ∀ e : Emission, x e = .ok (a e.frame) { e with frame := u e.frame }

theorem turns_change (u : Frame → Frame) : Turns (change u) (fun _ => ()) u := fun _ => rfl

theorem turns_step (g : Frame → α × Frame) : Turns (step g) (fun f => (g f).1) fun f => (g f).2 :=
  fun _ => rfl

theorem run_step (g : Frame → α × Frame) (e : Emission) :
    step g e = .ok (g e.frame).1 { e with frame := (g e.frame).2 } :=
  rfl

theorem turns_attempt {g : Frame → Except RegisterError (α × Frame)} {a : Frame → α}
    (h : ∀ f, g f = .ok (a f, u f)) : Turns (attempt g) a u := by
  intro e
  unfold attempt
  rw [bind_ok (show (get : Emit Emission) e = .ok e e from rfl), h]
  rfl

theorem turns_attempt' {g : Frame → Except RegisterError Frame} (h : ∀ f, g f = .ok (u f)) :
    Turns (attempt' g) (fun _ => ()) u :=
  turns_attempt fun f => by rw [h]; rfl

theorem turns_frame : Turns frame (fun f => f) fun f => f := fun _ => rfl

theorem turns_slotOf (id : RegisterId) :
    Turns (slotOf id) (fun f => f.registers.slotOf id) fun f => f :=
  fun _ => rfl

theorem turns_pop : Turns pop Frame.top Frame.popped := turns_attempt pop_eq

theorem turns_temporary : Turns temporary (fun f => f.temporary.1) fun f => f.temporary.2 :=
  turns_step _

/-- The computation changes the frame only, keeps its texts in order, and does not depend on debug
options. -/
structure Tame (x : Emit α) (a : Frame → α) (u : Frame → Frame) : Prop where
  turns : Turns x a u
  passed : ∀ f : Frame, f.Passed (u f)
  proper : ∀ {f : Frame}, f.Proper → (u f).Proper
  deaf : Deaf u
  value : ∀ f : Frame, a f.mute = a f

theorem tame_change (hs : ∀ f : Frame, f.Sheds (u f)) (hp : ∀ {f : Frame}, f.Proper → (u f).Proper)
    (hu : Deaf u) : Tame (change u) (fun _ => ()) u :=
  ⟨turns_change u, fun f => (hs f).toPassed, hp, hu, fun _ => rfl⟩

theorem tame_step {g : Frame → α × Frame} (hs : ∀ f : Frame, f.Passed (g f).2)
    (hp : ∀ {f : Frame}, f.Proper → (g f).2.Proper) (hg : DeafStep g) :
    Tame (step g) (fun f => (g f).1) fun f => (g f).2 :=
  ⟨turns_step g, hs, hp, fun f => by rw [hg f], fun f => by rw [hg f]⟩

theorem tame_attempt' {g : Frame → Except RegisterError Frame} (hg : ∀ f, g f = .ok (u f))
    (hs : ∀ f : Frame, f.Sheds (u f)) (hp : ∀ {f : Frame}, f.Proper → (u f).Proper) (hu : Deaf u) :
    Tame (attempt' g) (fun _ => ()) u :=
  ⟨turns_attempt' hg, fun f => (hs f).toPassed, hp, hu, fun _ => rfl⟩

/-! ## Disciplines -/

/-- A property of computations that the steps of an emission have, and that is kept by `bind`. -/
structure Discipline where
  /-- the condition under which all texts are in order -/
  ok : Prop
  /-- may a line be written that opens, closes or jumps? -/
  jumps : Prop
  /-- `x` goes from indentation `n` to `m` and gives a value with the property `R` -/
  Holds : {α : Type} → (n : Nat) → (x : Emit α) → (m : Nat) → (R : α → Prop) → Prop
  done : ∀ {α : Type} {n : Nat} {R : α → Prop} {a : α}, R a → Holds n (pure a) n R
  fail : ∀ {α : Type} {n m : Nat} {R : α → Prop} (c : Failure), Holds n (throw c : Emit α) m R
  chain : ∀ {α β : Type} {n m k : Nat} {R : α → Prop} {S : β → Prop} {x : Emit α}
    {y : α → Emit β}, Holds n x m R → (∀ a, R a → Holds m (y a) k S) → Holds n (x >>= y) k S
  look : ∀ {β : Type} {n m : Nat} {S : β → Prop} {y : Frame → Emit β},
    (∀ f : Frame, y f.mute = y f) → (∀ f : Frame, (ok → f.Proper) → Holds n (y f) m S) →
      Holds n (frame >>= y) m S
  turn : ∀ {α : Type} {n : Nat} {R : α → Prop} {x : Emit α} {a : Frame → α} {u : Frame → Frame},
    Tame x a u → (∀ f : Frame, (ok → f.Proper) → R (a f)) → Holds n x n R
  plain : ∀ {n : Nat} {l : Line}, l.Plain ok → Holds n (line l) n Any
  clear : ∀ {n : Nat} {l : Line}, jumps → l.fresh = true → (ok → l.Clear) →
    Holds n (line l) n Any
  deeper : ∀ {n : Nat}, Holds n deeper (n + 1) Any
  shallower : ∀ {n : Nat}, Holds n shallower (n - 1) Any

/-- A discipline that allows all code, with the debug comments at the begin and the end of an
instruction. -/
structure Discipline.Full (d : Discipline) : Prop where
  jumps : d.jumps
  saves : ∀ (n : Nat) {env : Env} {handle : String}, env.registry.memory? 0 = some handle →
    ∀ offset, d.Holds n (savePlace handle offset) n Any
  begun : ∀ (n : Nat) (i : Instr), (d.ok → ∀ name ∈ i.unsupportedNames, OneLine name) →
    d.Holds n (begin i) n Any
  finished : ∀ n : Nat, d.Holds n finish n Any

/-! ## Small steps -/

section

variable {d : Discipline} {n m k : Nat} {R : α → Prop} {S : β → Prop}

theorem Discipline.Holds.bind {x : Emit α} {y : α → Emit β} (hx : d.Holds n x m R)
    (hy : ∀ a, R a → d.Holds m (y a) k S) : d.Holds n (x >>= y) k S :=
  d.chain hx hy

theorem Discipline.Holds.next {x : Emit α} {y : Emit β} (hx : d.Holds n x m R)
    (hy : d.Holds m y k S) : d.Holds n (do let _ ← x; y) k S :=
  hx.bind fun _ _ => hy

theorem Discipline.Holds.inset {x : Emit Unit} (hx : d.Holds (n + 1) x (n + 1) Any) :
    d.Holds n (Emit.inset x) n Any :=
  d.deeper.next <| hx.next <| d.shallower

theorem holds_pure {a : α} (h : R a) : d.Holds n (pure a) n R := d.done h

theorem holds_change (hs : ∀ f : Frame, f.Sheds (u f)) (hp : ∀ {f : Frame}, f.Proper → (u f).Proper)
    (hu : Deaf u) : d.Holds n (change u) n Any :=
  d.turn (tame_change hs hp hu) fun _ _ => trivial

theorem holds_stmt {s : Stmt} (ht : s.stays = true) (h : d.ok → s.Tidy) :
    d.Holds n (stmt s) n Any :=
  d.plain (Line.plain_stmt ht h)

theorem holds_run {e : Expr} (h : d.ok → e.Tidy) : d.Holds n (stmt (.run e)) n Any :=
  holds_stmt rfl h

theorem holds_comment {text : String} (h : d.ok → OneLine text) :
    d.Holds n (line (.comment text)) n Any :=
  d.plain (Line.plain_comment h)

theorem holds_warn (w : Warning) (h : d.ok → ∀ name, w = .unsupported name → OneLine name) :
    d.Holds n (warn w) n Any := by
  have hwarn : d.Holds n (change fun f => f.warn w.message) n Any :=
    holds_change (fun f => .warn f _) (fun h => h.congr rfl rfl) fun _ => rfl
  refine hwarn.next <| holds_comment fun hok => ?_
  exact (.ofList (by decide) : OneLine "WARNING: ").append (w.oneLine_message (h hok))

/-- A warning that names no instruction. -/
theorem holds_warn_of_ne (w : Warning) (h : ∀ name, w ≠ .unsupported name) :
    d.Holds n (warn w) n Any :=
  holds_warn w fun _ name hw => absurd hw (h name)

theorem holds_pop : d.Holds n pop n (fun o => d.ok → o.Proper) :=
  d.turn ⟨turns_pop, fun f => (Sheds.popped f).toPassed, Proper.popped, .popped, fun _ => rfl⟩
    fun _ h hok => (h hok).top

theorem holds_popMany (count : Nat) :
    d.Holds n (popMany count) n (fun os => d.ok → ∀ o ∈ os, o.Proper) := by
  induction count with
  | zero => exact holds_pure fun _ => by simp
  | succ count ih =>
    refine holds_pop.bind fun last hlast => ih.bind fun front hfront => holds_pure fun hok => ?_
    intro o ho
    obtain ho | rfl := by simpa using ho
    · exact hfront hok o ho
    · exact hlast hok

theorem holds_peek (depth : Nat) :
    d.Holds n (step fun f => f.peek depth) n (fun o => d.ok → o.Proper) :=
  d.turn
    (tame_step (fun f => (Sheds.peek f depth).toPassed) (fun h => (h.peek depth).2) (.peek depth))
    fun _ h hok => ((h hok).peek depth).1

theorem holds_peekMany (count : Nat) :
    d.Holds n (peekMany count) n (fun os => d.ok → ∀ o ∈ os, o.Proper) := by
  induction count with
  | zero => exact holds_pure fun _ => by simp
  | succ count ih =>
    refine (holds_peek count).bind fun o ho => ih.bind fun rest hrest => holds_pure fun hok => ?_
    exact List.forall_mem_cons.2 ⟨ho hok, hrest hok⟩

theorem holds_temporary : d.Holds n temporary n Any :=
  d.turn (tame_step (fun f => (Sheds.temporary f).toPassed) Proper.temporary .temporary) fun _ _ =>
    trivial

theorem holds_slotOf (id : RegisterId) : d.Holds n (slotOf id) n Any :=
  d.look (fun _ => rfl) fun _ _ => holds_pure trivial

theorem holds_assign {value : Expr} (id : RegisterId)
    (h : d.ok → value.Tidy ∨ value = .paren (.negate (.operand .missing))) :
    d.Holds n (assign id value) n Any :=
  (holds_slotOf id).bind fun _ _ => d.plain (Line.plain_assign h)

theorem holds_copy {value : Operand} (id : RegisterId) (h : d.ok → value.Proper) :
    d.Holds n (copy id value) n Any := by
  refine (holds_slotOf id).bind fun slot _ => ?_
  split
  · exact d.plain (Line.plain_assign fun hok => .inl (Expr.tidy_operand (h hok)))
  · exact holds_pure trivial

theorem holds_pushRegister (id : RegisterId) :
    d.Holds n (change fun f => f.pushRegister id) n Any :=
  holds_change (fun f => .pushRegister f id) (fun h => h.pushRegister id) (.pushRegister id)

theorem holds_pushNil : d.Holds n (change fun f => f.pushLiteral .nil) n Any :=
  holds_change (fun f => .pushLiteral f .nil) (fun h => h.pushLiteral trivial) (.pushLiteral .nil)

theorem holds_accessed (index : Nat) :
    d.Holds n (attempt' fun f => f.afterLocalAccess index) n Any :=
  d.turn (tame_attempt' (fun f => f.afterLocalAccess_eq index) (fun f => .accessed f index)
    (fun h => h.accessed index)
    (.accessed index)) fun _ _ => trivial

theorem holds_drained : d.Holds n (attempt' Frame.drainPending) n Any :=
  d.turn (tame_attempt' Frame.drainPending_eq .drained Proper.drained .drained) fun _ _ => trivial

theorem holds_localRegister (index : Nat) : d.Holds n (step fun f => f.localRegister index) n Any :=
  d.turn (tame_step (fun f => .localRegister f index) (fun h => h.localRegister index)
    (.localRegister index)) fun _ _ => trivial

end

/-! ## Instructions without a body -/

section

variable {d : Discipline} {n : Nat} {env : Env} {name : String}

theorem holds_localGet (index : Nat) : d.Holds n (localGet index) n Any := by
  refine d.look (fun _ => rfl) fun f _ => ?_
  split
  · exact (holds_warn_of_ne _ (by simp)).next <| holds_pushNil
  · exact (holds_localRegister index).bind fun id _ => (holds_pushRegister id).next <|
      holds_accessed index

/-- The copy that takes the stack entries of a register. -/
theorem holds_detachAliases (id : RegisterId) : d.Holds n (step fun f => f.detachAliases id) n
    (fun copy => ∀ s ∈ copy, s.stays = true ∧ s.Tidy) := by
  refine d.turn (tame_step (fun f => (Sheds.detachAliases f id).toPassed)
    (fun h => h.detachAliases id) (.detachAliases id)) fun f _ => ?_
  unfold Frame.detachAliases
  simp only
  split
  · simp
  · rintro s hs
    cases hs
    exact ⟨rfl, by simp [Stmt.Tidy]⟩

theorem holds_storeLocal (index : Nat) (keep : Bool) (id : RegisterId) :
    d.Holds n (storeLocal index keep id) n Any := by
  refine holds_pop.bind fun value hv => (holds_copy id hv).next <| ?_
  split
  · exact (holds_pushRegister id).next <| holds_accessed index
  · exact holds_accessed index

theorem holds_localSet (index : Nat) (keep : Bool) : d.Holds n (localSet index keep) n Any := by
  refine d.look (fun _ => rfl) fun f _ => ?_
  split
  · refine (holds_warn_of_ne _ (by simp)).next <| holds_pop.next <| ?_
    split
    · exact holds_pushNil
    · exact holds_pure trivial
  · refine (holds_localRegister index).bind fun id _ =>
      (holds_detachAliases id).bind fun copy hcopy => ?_
    cases copy with
    | none => exact holds_storeLocal index keep id
    | some s =>
      obtain ⟨ht, hs⟩ := hcopy s rfl
      exact (holds_stmt ht fun _ => hs).next <| holds_storeLocal index keep id

/-! ### Tasks -/

theorem holds_temporaries (count : Nat) : d.Holds n (temporaries count) n Any := by
  induction count with
  | zero => exact holds_pure trivial
  | succ count ih =>
    exact holds_temporary.bind fun _ _ => ih.bind fun _ _ => holds_pure trivial

theorem holds_forM {α : Type} {x : α → Emit Unit} {as : List α}
    (h : ∀ a ∈ as, d.Holds n (x a) n Any) : d.Holds n (as.forM x) n Any := by
  induction as with
  | nil => exact holds_pure trivial
  | cons a rest ih =>
    exact (h a (by simp)).next <| ih fun a' ha => h a' (by simp [ha])

theorem holds_perform {t : Task}
    (hwarn : ∀ w, w ∈ t.notices ∨ w ∈ t.warnings → d.Holds n (warn w) n Any)
    (hliterals : ∀ l ∈ t.literals, l.Proper)
    (hsteps : ∀ xs ds, (d.ok → ∀ x ∈ xs, x.Proper) → ∀ l ∈ t.code xs ds, l.Step d.ok) :
    d.Holds n (perform t) n Any := by
  refine (holds_forM fun w hw => hwarn w (.inl hw)).next <|
    (holds_temporaries _).bind fun results _ => (holds_popMany _).bind fun xs hxs =>
    (holds_forM fun w hw => hwarn w (.inr hw)).next <| d.look (fun _ => rfl) fun f _ =>
    (holds_forM fun l hl => d.plain (hsteps _ _ hxs l hl).plain).next <|
    holds_change (fun f => ?_) (fun {f} hf => ?_) ?_
  · exact (Sheds.foldl .pushRegister results f).trans (.foldl .pushLiteral t.literals _)
  · exact List.foldlRecOn t.literals _
      (List.foldlRecOn results _ hf fun _ hg id _ => hg.pushRegister id) fun _ hg l hl =>
        hg.pushLiteral (hliterals l hl)
  · exact (Deaf.foldl (fun l => .pushLiteral l) t.literals).comp
      (.foldl (fun id => .pushRegister id) results)

theorem holds_task {o : Op} {t : Task} (ht : o.task env = some t)
    (henv : d.ok → env.registry.Tidy) (hname : d.ok → OneLine o.mnemonic) :
    d.Holds n (perform t) n Any := by
  obtain ⟨hnames, hliterals⟩ := Op.texts_task ht
  refine holds_perform (fun w hw => ?_) hliterals fun _ _ => Op.steps_task ht henv
  exact holds_warn w fun hok name h => hnames name (h ▸ hw) ▸ hname hok

theorem holds_convert (c : Conversion) : d.Holds n (convert c) n Any :=
  (holds_peek 0).next <| holds_perform (by simp [Plain.task]) (by simp [Plain.task]) fun _ _ =>
    Plain.steps_conversion

/-! ### Places to resume at -/

theorem tidy_jumpRecord : (Expr.name jumpRecord).Tidy := .ofList (by decide)

theorem tidy_resumedValue (site : Label) : (resumedValue site).Tidy := by
  have hnil : (Expr.operand (.literal .nil)).Tidy := Expr.tidy_operand trivial
  exact ⟨⟨⟨⟨tidy_jumpRecord, hnil⟩, ⟨tidy_jumpRecord, by decide⟩, trivial⟩,
    tidy_jumpRecord, by decide⟩, trivial⟩

/-- A place to resume at, if any line may be written, and a place may be noted. -/
theorem holds_savePlace {handle : String} (hm : env.registry.memory? 0 = some handle)
    (offset : Nat) (hline : ∀ l : Line, (d.ok → l.Clear) → d.Holds n (line l) n Any)
    (hsite : ∀ s, d.Holds n (change fun f => { f with sites := f.sites.push s }) n Any) :
    d.Holds n (savePlace handle offset) n Any := by
  refine holds_temporary.bind fun id _ => holds_pop.bind fun buffer hb =>
    d.look (fun _ => rfl) fun f _ => (hline _ fun hok => .inl ?_).next <|
    (d.plain (Line.plain_label _)).next <|
    (holds_assign id fun _ => .inl (tidy_resumedValue _)).next <|
    (holds_pushRegister id).next <| d.look (fun _ => rfl) fun g _ => ?_
  · exact ⟨⟨Expr.tidy_helper _, tidy_memory? hm⟩, Expr.tidy_operand (hb hok)⟩
  simp only
  split
  · exact (holds_warn_of_ne _ (by simp)).next <| hsite _
  · exact hsite _

theorem holds_leaveFunction : d.Holds n leaveFunction n Any :=
  d.look (fun _ => rfl) fun _ _ => (holds_peekMany _).bind fun _ hvalues =>
    holds_stmt rfl fun hok o ho => Operand.neutral_text (hvalues hok o ho)

/-! ### All of them -/

/-- Every instruction without a body and without a jump keeps to a discipline. -/
theorem holds_op {o : Op} (offset : Nat) (hjump : o.isJump = false)
    (henv : d.ok → env.registry.Tidy) (hname : d.ok → OneLine o.mnemonic)
    (hsite : (∀ handle, env.registry.memory? 0 = some handle →
      d.Holds n (savePlace handle offset) n Any) ∨ o.savesPlace env = false) :
    d.Holds n (op env offset o) n Any := by
  cases ht : o.task env with
  | some t => exact op_eq_perform ht offset ▸ holds_task ht henv hname
  | none =>
    cases Op.special_of_task ht with
    | br _ | brIf _ | brTable _ _ => cases hjump
    | ret => exact holds_leaveFunction
    | localGet index => exact holds_localGet index
    | localSet index => exact holds_localSet index false
    | localTee index => exact holds_localSet index true
    | convert c => exact holds_convert c
    | setjmp hs hm =>
      obtain hsite | hsite := hsite
      · exact op_eq_savePlace hs hm offset ▸ hsite _ hm
      · cases hs.symm.trans hsite

end

/-! ## Jumps -/

section

variable {d : Discipline} {n : Nat}

theorem holds_clear (hw : d.jumps) {l : Line} (hr : l.fresh = true) (h : d.ok → l.Tidy) :
    d.Holds n (line l) n Any :=
  d.clear hw hr fun hok => .inl (h hok)

theorem holds_branch (hw : d.jumps) (depth : Nat) : d.Holds n (branch depth) n Any := by
  refine d.look (fun _ => rfl) fun f _ => ?_
  split
  · rename_i target _
    have hjump : d.Holds n (stmt (.goto target.branchLabel)) n Any :=
      holds_clear hw rfl fun _ => trivial
    simp only
    split
    · exact (holds_peek 0).bind fun value hv => (holds_copy _ hv).next <| hjump
    · exact hjump
  · split
    · exact holds_leaveFunction
    · exact (holds_warn_of_ne _ (by simp)).next <| holds_run fun _ => Expr.tidy_error _

/-- An operand that is compared with a number. -/
theorem tidy_test {o : Operand} (op : InfixOp) (count : Nat) (h : d.ok → o.Proper) :
    d.ok → (Expr.binary op (.operand o) (.number count)).Tidy :=
  fun hok => ⟨Expr.tidy_operand (h hok), trivial⟩

theorem holds_ifThen (hw : d.jumps) {condition : Expr} (h : d.ok → condition.Tidy) :
    d.Holds n (line (.ifThen condition)) n Any :=
  holds_clear hw rfl h

theorem holds_otherwise (hw : d.jumps) : d.Holds n (line .otherwise) n Any :=
  holds_clear hw rfl fun _ => trivial

theorem holds_close (hw : d.jumps) : d.Holds n (line .close) n Any :=
  holds_clear hw rfl fun _ => trivial

theorem holds_branchIf (hw : d.jumps) (depth : Nat) : d.Holds n (branchIf depth) n Any :=
  holds_pop.bind fun _ hc => (holds_ifThen hw (tidy_test .ne 0 hc)).next <|
    (holds_branch hw depth).inset.next <| holds_close hw

theorem holds_choose (hw : d.jumps) {index : Operand} (hi : d.ok → index.Proper) (c : Choice)
    (behind : Bool) : d.Holds n (choose index c behind) n Any := by
  induction c generalizing n behind with
  | go depth =>
    cases behind with
    | false => exact holds_branch hw depth
    | true => exact (holds_otherwise hw).next <| (holds_branch hw depth).inset
  | test joins t yes no ihyes ihno =>
    have htidy : d.ok → (t.condition index).Tidy := fun hok => by
      cases t with
      | equals | below => exact tidy_test _ _ hi hok
      | outside => exact ⟨tidy_test _ _ hi hok, tidy_test _ _ hi hok⟩
    have harms {n : Nat} := (ihyes (n := n + 1) false).inset.next (ihno (n := n) true)
    have hwhole {n : Nat} := (holds_ifThen (n := n) hw htidy).next <| harms.next <| holds_close hw
    rw [choose]
    split
    · exact hwhole
    · split
      · exact (holds_clear (l := .elseIf _) hw rfl htidy).next harms
      · exact (holds_otherwise hw).next hwhole.inset

theorem holds_branchTable (hw : d.jumps) (env : Env) (targets : List Nat) (fallback : Nat) :
    d.Holds n (branchTable env targets fallback) n Any := by
  unfold branchTable
  simp only
  split
  · exact d.chain (d.fail (m := n) (R := fun _ => False) _) fun _ h => h.elim
  exact holds_pop.bind fun index hi => holds_choose hw hi _ false

/-! ## Structured instructions -/

theorem holds_dropRest (b : Block) : d.Holds n (dropRest b) n Any := by
  refine d.look (fun _ => rfl) fun f _ => ?_
  simp only
  split
  · exact (holds_warn_of_ne _ (by simp)).next <| (holds_popMany _).next <| holds_pure trivial
  · exact holds_pure trivial

theorem holds_settleArm (b : Block) : d.Holds n (settleArm b) n Any := by
  unfold settleArm
  simp only
  split
  · rename_i id _
    refine d.look (fun _ => rfl) fun f _ => ?_
    split
    · exact holds_pop.bind fun value hv => (holds_copy id hv).next <| holds_dropRest b
    · exact holds_dropRest b
  · exact holds_dropRest b

theorem holds_tick : d.Holds n (change Frame.tick) n Any :=
  holds_change .tick (fun h => h.congr rfl rfl) fun _ => rfl

theorem holds_label (l : Label) : d.Holds n (line (.label l)) n Any :=
  d.plain (Line.plain_label l)

theorem holds_openBlock (name : BlockName) (result : Option ValueType) :
    d.Holds n (openBlock name result) n Any :=
  d.turn (tame_step (fun f => (Sheds.openBlock f name result).toPassed)
    (fun h => h.openBlock name result) (.openBlock name result)) fun _ _ => trivial

theorem holds_alternative (hw : d.jumps) (b : Block) :
    d.Holds n (alternative b) (n - 1 + 1) Any := by
  have hjump : d.Holds n (stmt (.goto (.fin b.name))) n Any :=
    holds_clear hw rfl fun _ => trivial
  refine holds_tick.next <| (holds_settleArm b).next <| hjump.next <|
    d.shallower.next <| (holds_label _).next <|
    d.deeper.next <| holds_change (fun f => ?_) (fun hf => ?_) fun f => ?_
  · split
    · exact .refl f
    · exact .blocks f _
  · split
    · exact hf
    · exact hf.congr rfl rfl
  · have hblocks : f.mute.blocks = f.blocks := rfl
    simp only [hblocks]
    cases f.blocks <;> rfl

theorem holds_checkDepth (b : Block) (expected : Nat) :
    d.Holds n (checkDepth b expected) n Any := by
  refine d.look (fun _ => rfl) fun f _ => ?_
  split
  · exact d.fail _
  · exact holds_pure trivial

theorem holds_forgetBlock (b : Block) : d.Holds n (forgetBlock b) n Any := by
  have hdrop : d.Holds n (change Frame.dropBlock) n Any :=
    holds_change (fun f => .blocks f _) (fun h => h.congr rfl rfl) fun _ => rfl
  refine (holds_label _).next <| hdrop.next <| ?_
  cases b.register with
  | none => exact holds_checkDepth b _
  | some id => exact (holds_pushRegister id).next <| holds_checkDepth b _

theorem holds_leaveBlock (hw : d.jumps) (b : Block) : d.Holds n (leaveBlock b) (n - 1) Any := by
  unfold leaveBlock
  split
  · exact d.chain (holds_clear hw rfl fun _ => trivial) fun _ _ =>
      d.shallower.next <| (holds_close hw).next <| holds_forgetBlock b
  · exact d.shallower.next <| holds_forgetBlock b

theorem holds_closeBlock (hw : d.jumps) : d.Holds n closeBlock (n - 1) Any := by
  refine holds_tick.next <| d.look (fun _ => rfl) fun f _ => ?_
  split
  · exact d.look (fun _ => rfl) fun _ _ => d.fail _
  · rename_i b _ _
    refine (holds_settleArm b).next <| ?_
    simp only
    split
    · exact (holds_warn_of_ne _ (by simp)).next <| holds_leaveBlock hw b
    · exact holds_leaveBlock hw b

end

/-! ## Bodies -/

section

variable {d : Discipline} {n : Nat} {env : Env}

theorem holds_zeroLocals (indices : List Nat) : d.Holds n (zeroLocals indices) n Any := by
  induction indices with
  | nil => exact holds_pure trivial
  | cons index rest ih =>
    exact d.look (fun _ => rfl) fun f _ => (holds_localRegister index).bind fun id _ =>
      (holds_assign id fun _ => .inl (ValueType.tidy_zero _)).next <|
      (holds_accessed index).next <| ih

theorem holds_enterBlock (hd : d.Full) (name : BlockName) (result : Option ValueType) :
    d.Holds n (enterBlock name result) (n + 1) Any := by
  refine (holds_openBlock _ _).bind fun b _ => ?_
  by_cases hl : name.kind = .loop
  · simp only [if_pos hl]
    have hloop : d.Holds n (line .forever) n Any := holds_clear hd.jumps rfl fun _ => trivial
    exact (holds_label _).next <| hloop.next <| d.deeper
  · simp only [if_neg hl]
    exact d.deeper

theorem holds_enterIf (hd : d.Full) (offset : Nat) (result : Option ValueType)
    (skip : BlockName → Label) : d.Holds n (enterIf offset result skip) (n + 1) Any := by
  refine holds_pop.bind fun condition hc => (holds_openBlock _ _).bind fun b _ => ?_
  have hskip : d.Holds n (line (.guard (.binary .eq (.operand condition) (.number 0))
      (.goto (skip b.name)))) n Any :=
    holds_clear hd.jumps rfl fun hok => ⟨tidy_test .eq 0 hc hok, trivial⟩
  exact hskip.next <| d.deeper.next <| holds_pure trivial

theorem holds_leaf (hd : d.Full) (henv : d.ok → env.registry.Tidy) {o : Op} (offset : Nat)
    (hname : d.ok → OneLine o.mnemonic) : d.Holds n (op env offset o) n Any := by
  cases hjump : o.isJump with
  | false => exact holds_op offset hjump henv hname (.inl fun _ hm => hd.saves _ hm offset)
  | true =>
    cases o with
    | br depth => exact holds_branch hd.jumps depth
    | brIf depth => exact holds_branchIf hd.jumps depth
    | brTable targets fallback => exact holds_branchTable hd.jumps env targets fallback
    | _ => cases hjump

theorem holds_leave (hd : d.Full) : d.Holds n leave (n - 1) Any :=
  (holds_closeBlock hd.jumps).next <| hd.finished _

mutual

theorem holds_instr (hd : d.Full) (henv : d.ok → env.registry.Tidy) : (i : Instr) → (n : Nat) →
    (d.ok → ∀ name ∈ i.unsupportedNames, OneLine name) → d.Holds n (instr env i) n Any
  | .leaf offset o, n, hnames => by
    rw [instr]
    have hname : d.ok → OneLine o.mnemonic :=
      fun hok => Instr.oneLine_mnemonic (.leaf offset o) (hnames hok)
    exact (hd.begun _ _ hnames).next <| (holds_leaf hd henv offset hname).next <|
      hd.finished _
  | .block offset result inner, n, hnames | .loop offset result inner, n, hnames => by
    rw [instr]
    have hbody := holds_body hd henv inner (n + 1) hnames
    exact (hd.begun _ _ hnames).next <| (holds_enterBlock hd _ _).next <| hbody.next <|
      holds_leave hd
  | .ifThen offset result inner, n, hnames => by
    rw [instr]
    have hbody := holds_body hd henv inner (n + 1) hnames
    exact (hd.begun _ _ hnames).next <| (holds_enterIf hd _ _ _).next <| hbody.next <|
      holds_leave hd
  | .ifElse offset result inner other, n, hnames => by
    rw [instr]
    have hinner := holds_body hd henv inner (n + 1) fun hok name h =>
      hnames hok name (List.mem_append_left _ h)
    have hother := holds_body hd henv other (n + 1) fun hok name h =>
      hnames hok name (List.mem_append_right _ h)
    exact (hd.begun _ _ hnames).next <| (holds_enterIf hd _ _ _).bind fun b _ => hinner.next <|
      (holds_alternative hd.jumps b).next <| hother.next <| holds_leave hd

/-- **All code keeps to a discipline that allows it.** -/
theorem holds_body (hd : d.Full) (henv : d.ok → env.registry.Tidy) : (code : List Instr) →
    (n : Nat) → (d.ok → ∀ name ∈ Instr.bodyUnsupportedNames code, OneLine name) →
    d.Holds n (body env code) n Any
  | [], n, _ => by
    rw [body]
    exact holds_pure trivial
  | i :: rest, n, hnames => by
    rw [body]
    have hi := holds_instr hd henv i n fun hok name h =>
      hnames hok name (List.mem_append_left _ h)
    have hrest := holds_body hd henv rest n fun hok name h =>
      hnames hok name (List.mem_append_right _ h)
    exact hi.next <| hrest

end

theorem holds_finishFunction : d.Holds n finishFunction n Any := by
  refine d.look (fun _ => rfl) fun f _ => ?_
  split
  · exact (holds_popMany _).bind fun values hv =>
      holds_stmt rfl fun hok o ho => Operand.neutral_text (hv hok o ho)
  · exact holds_pure trivial

theorem holds_params (count : Nat) : d.Holds n (params count) n Any := by
  have hbind : ∀ indices : List Nat, d.Holds n (indices.mapM fun index => do
      let id ← step fun f => f.localRegister index
      return (← frame).nameOf id) n Any := by
    intro indices
    induction indices with
    | nil => exact holds_pure trivial
    | cons index rest ih =>
      rw [List.mapM_cons]
      refine d.chain (R := Any) ?_ fun _ _ => ih.bind fun _ _ => holds_pure trivial
      exact (holds_localRegister index).bind fun _ _ => d.look (fun _ => rfl) fun _ _ =>
        holds_pure trivial
  exact (hbind _).bind fun _ _ => (holds_forM fun index _ => holds_accessed index).bind fun _ _ =>
    holds_pure trivial

end

end Emit

end Moonstack
