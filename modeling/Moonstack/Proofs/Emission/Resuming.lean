import Moonstack.Proofs.Emission.Scoping
import Moonstack.Proofs.Emission.Starts

/-!
# Resuming a function

A call of `setjmp` stores the values of slots in a record (`JumpRecord.capture`). When the function
is called with the record, its head restores the slots and goes to the place of the call
(`JumpRecord.enter`).

What is written for an instruction in the state in which the writing comes to it stays in the code
(`Emit.reached_walk`). So the record of a call is the one made from the frame in front of it.
-/

namespace Moonstack

theorem slotName_injective : Function.Injective slotName := by
  intro m n h
  have hlists : "reg".toList ++ (toString m).toList = "reg".toList ++ (toString n).toList := by
    rw [← String.toList_append, ← String.toList_append]
    exact congrArg String.toList h
  exact Label.toString_injective (List.append_cancel_left hlists)

/-- What a call of `setjmp` stores: values by the names of their slots, and the place to go on at. -/
structure JumpRecord (V : Type) where
  data : List (String × Option V)
  target : String

namespace JumpRecord

variable {V : Type}

/-- The record of the slots below a bound. -/
def capture (σ : Nat → Option V) (slots : Nat) (target : Label) : JumpRecord V :=
  ⟨(List.range slots).map fun n => (slotName n, σ n), target.text⟩

def restore (r : JumpRecord V) (σ : Nat → Option V) : Line → Nat → Option V
  | .declare slots => fun n => if n ∈ slots then none else σ n
  | .stmt (.assign [.operand (.slot m)] (.field (.field (.name record) part) key)) => fun n =>
    if n = m ∧ record = jumpRecord ∧ part = "data" then (r.data.lookup key).join else σ n
  | _ => σ

/-- The statement that a line of the head runs, if it is the arm for the record. -/
def arm? (r : JumpRecord V) : Line → Option Stmt
  | .arm _ (.binary .eq (.field (.name record) part) (.string target)) s =>
    if record = jumpRecord ∧ part = "target" ∧ r.target = target then some s else none
  | _ => none

/-- Runs the head of a function that is called with the record. It gives the slots, and the statement
that the head ends with. -/
def enter (r : JumpRecord V) : List Line → (Nat → Option V) → (Nat → Option V) × Option Stmt
  | [], σ => (σ, none)
  | l :: rest, σ => (r.arm? l).elim (r.enter rest (r.restore σ l)) fun s => (σ, some s)

theorem lookup_capture (σ : Nat → Option V) (ns : List Nat) (n : Nat) :
    (ns.map fun n => (slotName n, σ n)).lookup (slotName n) = if n ∈ ns then some (σ n) else none := by
  induction ns with
  | nil => rfl
  | cons m rest ih =>
    rw [List.map_cons, List.lookup_cons]
    by_cases h : n = m
    · simp [h]
    · simp [h, beq_false_of_ne fun he => h (slotName_injective he), ih]

variable (r : JumpRecord V)

theorem enter_restoreLines (slots : Nat) (rest : List Line) (σ : Nat → Option V) :
    ∃ τ, r.enter (restoreLines slots ++ rest) σ = r.enter rest τ ∧
      ∀ n < slots, τ n = (r.data.lookup (slotName n)).join := by
  induction slots generalizing rest with
  | zero => exact ⟨σ, rfl, nofun⟩
  | succ m ih =>
    obtain ⟨τ, hτ, hvalues⟩ := ih (.stmt (.assign [.slot m]
      (.field (.field (.name jumpRecord) "data") (slotName m))) :: rest)
    refine ⟨r.restore τ (.stmt (.assign [.slot m]
      (.field (.field (.name jumpRecord) "data") (slotName m)))), ?_, fun n hn => ?_⟩
    · rw [restoreLines, List.range_succ, List.map_append, List.append_assoc]
      exact hτ
    · by_cases h : n = m
      · simp [restore, Expr.slot, h]
      · simpa [restore, Expr.slot, h] using hvalues n (by omega)

/-- The head comes to the arm for the record. -/
theorem enter_dispatch {sites : List ResumeSite} {s : ResumeSite} (hs : s ∈ sites)
    (hd : (sites.map ResumeSite.offset).Nodup) (hr : r.target = (Label.resume s.offset).text)
    (first : Nat) (rest : List Line) (σ : Nat → Option V) :
    r.enter ((sites.zipIdx first).map (fun p => dispatchLine p.1 p.2) ++ rest) σ =
      (σ, some (if s.inLoop then .run (.error "cannot resume a setjmp inside a loop")
        else .goto (.resume s.offset))) := by
  induction sites generalizing first with
  | nil => cases hs
  | cons t more ih =>
    rw [List.zipIdx_cons, List.map_cons, List.cons_append]
    obtain ⟨ht, hd⟩ := List.nodup_cons.1 hd
    obtain rfl | hs := List.mem_cons.1 hs
    · simp [enter, dispatchLine, arm?, hr]
    · have hne : (Label.resume s.offset).text ≠ (Label.resume t.offset).text := by
        intro he
        rw [← Label.resume.inj (Label.text_injective he)] at ht
        exact ht (List.mem_map_of_mem hs)
      simpa [enter, dispatchLine, arm?, restore, hr, hne] using ih hs hd (first + 1)

theorem enter_front {front : List Line} (hf : ∀ l ∈ front, ∃ slots, l = .declare slots)
    (rest : List Line) (σ : Nat → Option V) : ∃ τ, r.enter (front ++ rest) σ = r.enter rest τ := by
  induction front generalizing σ with
  | nil => exact ⟨σ, rfl⟩
  | cons l more ih =>
    obtain ⟨⟨slots, rfl⟩, hmore⟩ := List.forall_mem_cons.1 hf
    exact ih hmore _

/-- A record of slots that the head restores brings back its values, at the arm of its place. -/
theorem enter_resumeHeader {sites : List ResumeSite} {s : ResumeSite} {front : List Line}
    {slots bound : Nat} (hf : ∀ l ∈ front, ∃ slots, l = .declare slots) (hs : s ∈ sites)
    (hd : (sites.map ResumeSite.offset).Nodup) (hslots : slots ≤ bound) (σ τ : Nat → Option V) :
    ∃ ρ, (capture σ slots (.resume s.offset)).enter
        (front ++ (resumeHeader bound sites).map Placed.line) τ =
      (ρ, some (if s.inLoop then .run (.error "cannot resume a setjmp inside a loop")
        else .goto (.resume s.offset))) ∧ ∀ n < slots, ρ n = σ n := by
  obtain ⟨τ', hfront⟩ := (capture σ slots (.resume s.offset)).enter_front hf
    ((resumeHeader bound sites).map Placed.line) τ
  rw [hfront, code_resumeHeader, List.append_assoc, List.append_assoc]
  obtain ⟨ρ, hρ, hvalues⟩ := (capture σ slots (.resume s.offset)).enter_restoreLines bound
    (sites.zipIdx.map (fun p => dispatchLine p.1 p.2) ++ ([.close] ++ [.close])) τ'
  refine ⟨ρ, ?_, fun n hn => ?_⟩
  · exact hρ.trans (enter_dispatch _ hs hd rfl 0 _ ρ)
  · rw [hvalues n (by omega), capture, lookup_capture, if_pos (List.mem_range.2 hn), Option.join_some]

end JumpRecord

/-- The code and the places to resume at go on from an emission. -/
def Rule.after (d : Emission) : Rule where
  ok := False
  Keeps f code := d.code <+: code ∧ d.frame.sites.toList <+: f.sites.toList
  plain _ h := ⟨h.1.trans (List.prefix_append _ _), h.2⟩
  passed hp _ h := ⟨h.1, hp.sites ▸ h.2⟩
  proper h := h.elim

theorem Rule.full_after (d : Emission) : (Rule.after d).discipline.Full :=
  Rule.Wide.full ⟨fun _ h => ⟨h.1.trans (List.prefix_append _ _), h.2⟩,
    fun s h => ⟨h.1, h.2.trans (by simp)⟩⟩

namespace Emit

open Moonstack.Frame

variable {α β γ : Type} {env : Env} {e e' p : Emission} {i j : Instr}

/-- What is written for `j` in the state `p` stands in the code of the state `e`. -/
def Reached (env : Env) (j : Instr) (p e : Emission) : Prop :=
  ∃ p', instr env j p = .ok () p' ∧ (Rule.after p').Keeps e.frame e.code

theorem Reached.self (h : instr env j p = .ok () e) : Reached env j p e :=
  ⟨e, h, List.prefix_refl _, List.prefix_refl _⟩

theorem Reached.step {x : Emit α} {a : α} {n : Nat} (h : Reached env j p e)
    (hx : ∀ d, Passes (.after d) e.indent x n Any) (hr : x e = .ok a e') : Reached env j p e' := by
  obtain ⟨p', hp, hk⟩ := h
  exact ⟨p', hp, (hx p' e a e' ⟨rfl, hk⟩ hr).1.keeps⟩

theorem Reached.closed (h : Reached env j p e) (hr : leave e = .ok () e') : Reached env j p e' :=
  h.step (fun d => holds_leave (Rule.full_after d)) hr

theorem holds_turn {d : Discipline} (hd : d.Full) {n : Nat} : d.Holds n turn (n - 1 + 1) Any := by
  refine d.look (fun _ => rfl) fun f _ => ?_
  split
  · exact d.look (fun _ => rfl) fun _ _ => d.fail _
  · exact holds_alternative hd.jumps _

theorem holds_stage {d : Discipline} (hd : d.Full) (hok : ¬ d.ok) (env : Env) (s : Instr.Stage)
    (n : Nat) : ∃ m, d.Holds n (stage env s) m Any := by
  cases s with
  | entry i => exact ⟨n, hd.begun _ _ fun h => absurd h hok⟩
  | inside i =>
    cases i with
    | leaf offset o =>
      exact ⟨n, (holds_leaf hd (fun h => absurd h hok) offset fun h => absurd h hok).next <|
        hd.finished _⟩
    | block offset result inner | loop offset result inner =>
      exact ⟨n + 1, holds_enterBlock hd _ _⟩
    | ifThen offset result inner | ifElse offset result inner other =>
      exact ⟨n + 1, (holds_enterIf hd _ _ _).next <| holds_pure trivial⟩
  | turn i => exact ⟨_, holds_turn hd⟩
  | close i => exact ⟨_, holds_leave hd⟩
  | behind i => exact ⟨n, holds_pure trivial⟩

/-- Nothing that has been written is taken back. -/
theorem code_prefix_stage {s : Instr.Stage} (h : stage env s e = .ok () e') : e.code <+: e'.code := by
  obtain ⟨m, hs⟩ := holds_stage (Rule.full_after e) False.elim env s e.indent
  exact (hs e () e' ⟨rfl, List.prefix_refl _, List.prefix_refl _⟩ h).1.keeps.1

/-- **What is written for an instruction of a body**, at any depth of nesting, stands in its code. -/
theorem reached_walk : Instr.Walk
    (fun i => ∀ {e e' p j}, Arrives env i e j p → instr env i e = .ok () e' → Reached env j p e')
    (fun code => ∀ {e e' p j}, BodyArrives env code e j p → body env code e = .ok () e' →
      Reached env j p e') where
  leaf offset o _ _ _ _ ha hx := by
    obtain ⟨rfl, rfl⟩ := arrives_leaf.1 ha
    exact .self hx
  encloses hi hbody _ _ _ _ ha hx := by
    obtain ⟨rfl, rfl⟩ | ⟨e₁, henter, ha⟩ := (arrives_encloses hi).1 ha
    · exact .self hx
    · rw [instr_of_encloses hi] at hx
      obtain ⟨_, _, h₁, hx⟩ := ok_of_bind hx
      cases henter.symm.trans h₁
      obtain ⟨_, e₂, h₂, hx⟩ := ok_of_bind hx
      exact (hbody ha h₂).closed hx
  ifElse offset result inner other hinner hother _ _ _ _ ha hx := by
    rcases arrives_ifElse.1 ha with ⟨rfl, rfl⟩ | ⟨e₁, henter, ha⟩ | ⟨e₃, hturn, ha⟩
    · exact .self hx
    · rw [instr_ifElse] at hx
      obtain ⟨_, e₃, h₃, hx⟩ := ok_of_bind hx
      obtain ⟨_, _, h₁, h₃⟩ := ok_of_bind h₃
      cases henter.symm.trans h₁
      obtain ⟨_, e₂, h₂, hturn⟩ := ok_of_bind h₃
      have hreached := (hinner ha h₂).step (fun d => holds_turn (Rule.full_after d)) hturn
      exact hreached.step (fun d =>
        (holds_body (Rule.full_after d) False.elim other _ False.elim).bind fun _ _ =>
        holds_leave (Rule.full_after d)) hx
    · rw [instr_ifElse] at hx
      obtain ⟨_, _, h₃, hx⟩ := ok_of_bind hx
      cases hturn.symm.trans h₃
      obtain ⟨_, e₄, h₄, hx⟩ := ok_of_bind hx
      exact (hother ha h₄).closed hx
  nil ha _ := absurd ha arrives_nil
  cons {i rest} hhead hrest _ _ _ _ ha hx := by
    rw [body] at hx
    obtain ⟨_, e₁, h₁, hx⟩ := ok_of_bind hx
    rcases arrives_cons.1 ha with ha | ⟨_, hi, ha⟩
    · exact (hhead ha h₁).step
        (fun d => holds_body (Rule.full_after d) False.elim rest _ False.elim) hx
    · cases hi.symm.trans h₁
      exact hrest ha hx

end Emit

namespace Frame

/-- Is the value of the register in use: as an operand, as a local, or as the result of an open
block? -/
def Uses (f : Frame) (id : RegisterId) : Prop :=
  .register id ∈ f.stack ∨ (∃ l : Nat, f.locals[l]? = some (some id)) ∨
    ∃ b ∈ f.blocks, b.register = some id

theorem Owned.slotOf_lt {f : Frame} {held : List RegisterId} (ho : f.Owned held) {id : RegisterId}
    (h : f.Uses id) : f.registers.slotOf id < f.registers.slotCount := by
  obtain ⟨a, ha⟩ : ∃ a, f.registers.get? id = some a := by
    obtain h | ⟨l, h⟩ | ⟨b, hb, h⟩ := h
    · exact (ho.stacked h).imp fun _ => And.left
    · exact (ho.bound h).imp fun _ => And.left
    · have hkept : id ∈ f.reserved held :=
        List.mem_append_left _ (List.mem_filterMap.2 ⟨b, hb, h⟩)
      exact (ho.kept hkept).imp fun _ => And.left
  simpa [Registers.slotOf, ha] using ho.sound.slot_lt ha

theorem resumed_frame (f : Frame) :
    f.resumed.registers.slotCount = f.saving.registers.slotCount ∧
      .register f.temporary.1 ∈ f.resumed.stack := by
  rw [resumed, pushRegister_eq]
  exact ⟨rfl, List.mem_cons_self⟩

/-- A call of `setjmp` that is written from the frame, in a function whose head restores the slots
below a bound and has arms for some places. What is in use there is in use in `f.resumed`, where the
result of the call is on the stack. -/
structure Resumes (f : Frame) (offset : Nat) (lowered : Lowered) (slots : Nat)
    (sites : List ResumeSite) : Prop where
  /-- the arm of the place knows whether a loop is open -/
  site : ⟨offset, f.inLoop⟩ ∈ sites
  /-- the record is followed by the label of the place -/
  code : ∃ place, [.stmt (.capture place f.saving.registers.slotCount (.resume offset)),
    .label (.resume offset)] <:+: lowered.code
  result : f.resumed.Uses f.temporary.1
  /-- the record holds all values in use -/
  covers : ∀ id, f.resumed.Uses id →
    f.resumed.registers.slotOf id < f.saving.registers.slotCount
  restored : f.saving.registers.slotCount ≤ slots
  /-- called with the record, the function goes to the label with these values -/
  back : f.inLoop = false → ∀ {V : Type} (σ τ : Nat → Option V), ∃ ρ,
    (JumpRecord.capture σ f.saving.registers.slotCount (.resume offset)).enter
      (lowered.header.map Placed.line) τ = (ρ, some (.goto (.resume offset))) ∧
    ∀ id, f.resumed.Uses id →
      ρ (f.resumed.registers.slotOf id) = σ (f.resumed.registers.slotOf id)

end Frame

section

open Moonstack.Frame Emit

variable {env : Env} {id name handle : String} {function : Function} {lowered : Lowered}

theorem writes_saved {o : Op} (hs : o.savesPlace env = true)
    (hm : env.registry.memory? 0 = some handle) (offset : Nat) (f : Frame) :
    Writes (op env offset o) f () (f.saved offset) (f.saveCode handle offset) := by
  cases o with
  | call index => exact op_eq_savePlace hs hm offset ▸ writes_savePlace handle offset f
  | _ => cases hs

/-- In front of the dispatch, the head of a function at most declares slots. -/
theorem header_of_sites {f : Frame} (h : f.sites.toList ≠ []) :
    ∃ front, (∀ l ∈ front, ∃ slots, l = .declare slots) ∧ (header f).map Placed.line =
      front ++ (resumeHeader f.registers.slotCount f.sites.toList).map Placed.line := by
  have hne : ¬f.sites.isEmpty = true := by simpa using h
  rw [header, if_neg hne, List.map_append]
  refine ⟨_, fun l hl => ?_, rfl⟩
  split at hl
  · cases hl
  · exact ⟨_, List.mem_singleton.1 hl⟩

section

variable {sites : List ResumeSite} {offset : Nat}

/-- A call leaves its place and its code in the function. -/
theorem saved_of_arrives {body : List Instr} {o : Op} {e e₁ e₂ p : Emission}
    (hm : env.registry.memory? 0 = some handle) (hplace : o.savesPlace env = true)
    (ha : BodyArrives env body e (.leaf offset o) p) (hbody : Emit.body env body e = .ok () e₁)
    (hfin : finishFunction e₁ = .ok () e₂) :
    ⟨offset, p.frame.begun.inLoop⟩ ∈ e₂.frame.sites.toList ∧
      p.frame.begun.saveCode handle offset <:+: e₂.code := by
  obtain ⟨p', hp, hk⟩ := reached_walk.body _ ha hbody
  obtain ⟨hfront, hmore⟩ :=
    (holds_finishFunction (d := (Rule.after p').discipline) e₁ () e₂ ⟨rfl, hk⟩ hfin).1.keeps
  obtain ⟨hwide, lines, hkeeps⟩ := keeps_of_ok hp
  obtain ⟨p'', hp'', -, hwritten⟩ := writes_leaf (writes_saved hplace hm offset p.frame.begun) p rfl
  cases hp.symm.trans hp''
  constructor
  · have hleaf := (scoped_instr _ hwide hkeeps.writes).sites
    rw [Instr.saves, hplace, hm] at hleaf
    rw [inLoop_moved (moved_begun p.frame)]
    exact hmore.subset (by simp [hleaf])
  · have hown : p.frame.begun.saveCode handle offset <:+: p'.code :=
      ⟨p.code ++ p.frame.beginCode (.leaf offset o), _, by
        rw [hwritten, List.append_assoc, List.append_assoc]⟩
    exact hown.trans hfront.isInfix

theorem Frame.Owned.resumes {f : Frame} {slots : Nat} {front : List Line} (ho : f.resumed.Owned [])
    (hsite : ⟨offset, f.inLoop⟩ ∈ sites) (hd : (sites.map ResumeSite.offset).Nodup)
    (hsave : f.saveCode handle offset <:+: lowered.lines.map Placed.line)
    (hrestored : f.saving.registers.slotCount ≤ slots)
    (hfront : ∀ l ∈ front, ∃ slots, l = .declare slots)
    (hhead : lowered.header.map Placed.line = front ++ (resumeHeader slots sites).map Placed.line) :
    f.Resumes offset lowered slots sites := by
  obtain ⟨hslots, htop⟩ := f.resumed_frame
  have hcovers (i : RegisterId) (hi : f.resumed.Uses i) :
      f.resumed.registers.slotOf i < f.saving.registers.slotCount := hslots ▸ ho.slotOf_lt hi
  refine ⟨hsite, ⟨_, .trans ⟨[], _, rfl⟩ (hsave.trans ?_)⟩, .inl htop, hcovers, hrestored,
    fun hloop V σ τ => ?_⟩
  · rw [Lowered.code, List.map_append]
    exact (List.suffix_append _ _).isInfix
  · obtain ⟨ρ, hρ, hvalues⟩ := JumpRecord.enter_resumeHeader hfront hsite hd hrestored σ τ
    rw [hhead]
    exact ⟨ρ, by simpa [hloop] using hρ, fun i hi => hvalues _ (hcovers i hi)⟩

end

/-- **A function that calls `setjmp` can be resumed.** Its head restores the slots and has one arm for
each call, in the order of the calls, with a label of its own. The writing comes to every call, and
whenever it does, the call resumes as `Frame.Resumes` says. -/
theorem resumes_lowerFunction (hm : env.registry.memory? 0 = some handle)
    (hsome : Instr.bodySaves env false function.body ≠ [])
    (hd : ((Instr.bodySaves env false function.body).map ResumeSite.offset).Nodup)
    (h : (lowerFunction env id name function).outcome.1 = .ok lowered) :
    let sites := Instr.bodySaves env false function.body
    ∃ signature params e slots front, env.registry.types[function.type]? = some signature ∧
      Emit.params signature.params.length
        { frame := startFrame env id (some signature) function.locals function.body } =
        .ok params e ∧
      lowered.header.map Placed.line = front ++ .ifThen (.name jumpRecord) ::
        ((restoreLines slots ++ ((sites.zipIdx.map fun p => dispatchLine p.1 p.2) ++ [.close])) ++
          [.close]) ∧
      (∀ l ∈ front, ∃ slots, l = .declare slots) ∧
      (sites.map fun s => (Label.resume s.offset).text).Nodup ∧
      ∀ offset o, .leaf offset o ∈ Instr.bodySubterms function.body → o.savesPlace env = true →
        (∃ p, BodyArrives env function.body e (.leaf offset o) p) ∧
          ∀ p, BodyArrives env function.body e (.leaf offset o) p →
            p.frame.begun.Resumes offset lowered slots sites := by
  intro sites
  obtain ⟨signature, f, g, code, hs, hover, rfl, hw, hlines, -, hheader⟩ := written_lowerFunction h
  have hsites : g.left.sites.toList = sites := (scoped_function hover hw).sites
  rw [Options.oversized, Bool.or_eq_false_iff] at hover
  obtain ⟨e, he, hf, hempty⟩ := writes_params
    (startFrame env id (some signature) function.locals function.body) { frame := _ } rfl
  have hnone : e.code = [] := hempty
  obtain ⟨e₁, hbody, hg, hcode⟩ := hw e hf
  obtain ⟨e₂, hfin, hleft, hreturn⟩ := writes_finishFunction g e₁ hg
  have htotal : e₂.code = lowered.lines.map Placed.line := by
    rw [hreturn, hcode, hnone, hlines, List.nil_append]
  have hsaves : e₂.frame.Saves e₂.code := by
    have h₁ := (holds_body Rule.full_saves False.elim function.body e.indent False.elim) e () e₁
      ⟨rfl, fun _ hm => by rw [hnone] at hm; cases hm⟩ hbody
    exact (holds_finishFunction (d := Rule.saves.discipline) e₁ () e₂ h₁.1 hfin).1.keeps
  obtain ⟨front, hfront, hhead⟩ := header_of_sites fun h => hsome (hsites.symm.trans h)
  rw [← hheader, hsites] at hhead
  refine ⟨signature, _, e, g.left.registers.slotCount, front, hs, he, ?_, hfront, ?_,
    fun offset o ho hplace => ⟨arrives_walk.body _ hover.2 _ ho e, fun p ha => ?_⟩⟩
  · rw [hhead, code_resumeHeader]
  · have := hd.map fun m n (hmn : (Label.resume m).text = (Label.resume n).text) =>
      Label.resume.inj (Label.text_injective hmn)
    rwa [List.map_map] at this
  · obtain ⟨hsite, hsave⟩ := saved_of_arrives hm hplace ha hbody hfin
    have hrestored := (hsaves.record (hsave.subset List.mem_cons_self)).1
    rw [hleft] at hsite hrestored
    have howned := (ha.poised (.function he)).begun.owned.temporary.popped.pushHeld
    exact howned.resumes (hsites ▸ hsite) hd (htotal ▸ hsave) hrestored hfront hhead

/-- A call of `setjmp` in front of a loop, and one in it. -/
def resumableFunction : Function where
  name := none
  type := 1
  locals := []
  body := [
    .leaf 0 (.const (.i32 0)), .leaf 2 (.call 0),
    .loop 4 none [.leaf 6 (.const (.i32 8)), .leaf 8 (.call 0), .leaf 10 .drop], .leaf 12 .drop]

theorem resumes_lowerFunction_twice :
    let m : Module := {
      types := [⟨[.i32], [.i32]⟩, ⟨[], []⟩]
      fields := [.imported ⟨"env", "setjmp", .function 0⟩, .memory ⟨1, none⟩,
        .function resumableFunction] }
    let env : Env := ⟨{}, (Registry.ofModule m).2⟩
    Instr.bodySaves env false resumableFunction.body = [⟨2, false⟩, ⟨8, true⟩] ∧
      ∃ lowered slots, ∃ p : Emission,
        (lowerFunction env "f" "f" resumableFunction).outcome.1 = .ok lowered ∧
        p.frame.begun.Resumes 2 lowered slots [⟨2, false⟩, ⟨8, true⟩] := by
  intro m env
  have hsites : Instr.bodySaves env false resumableFunction.body = [⟨2, false⟩, ⟨8, true⟩] := by
    decide +kernel
  have hplace : (Op.call 0).savesPlace env = true := by decide +kernel
  have hm : env.registry.memory? 0 = some "mem_0" := by decide +kernel
  obtain ⟨-, -, -, lowered, -, -, -, -, -, -, hy⟩ :=
    @yields_lowerFunction env resumableFunction ⟨[], []⟩ "f" "f" rfl (by decide)
  obtain ⟨-, -, e, slots, -, -, -, -, -, -, hresumes⟩ :=
    resumes_lowerFunction hm (by rw [hsites]; simp) (by rw [hsites]; decide) hy.outcome
  obtain ⟨⟨p, hp⟩, hall⟩ := hresumes 2 (.call 0)
    (by simp [resumableFunction, Instr.bodySubterms, Instr.subterms]) hplace
  exact ⟨hsites, lowered, slots, p, hy.outcome, hsites ▸ hall p hp⟩

end

end Moonstack
