import Mathlib.Algebra.GroupWithZero.Nat
import Moonstack.Proofs.Emission.Writes
import Moonstack.Proofs.Flow.Place
import Moonstack.Proofs.Frame.Accounts

/-!
# The code of branches

What branches and branch tables write, as lists of lines (`Frame.branchCode`, `Frame.choiceCode`).
They change nothing of the frame but its warnings (`Frame.Quiet`), so the arms of a table are all
written from the same frame.
-/

namespace Moonstack

/-- Does the line do nothing but open or close arms? -/
def Line.frames : Line → Bool
  | ifThen _ | elseIf _ | otherwise | close => true
  | _ => false

/-- The depths of the branches that a choice is between. -/
def Choice.depths : Choice → List Nat
  | go depth => [depth]
  | test _ _ yes no => yes.depths ++ no.depths

namespace Choice

theorem depths_chain (fallback first : Nat) (targets : List Nat) :
    (chain fallback first targets).depths = targets ++ [fallback] := by
  induction targets generalizing first with
  | nil => rfl
  | cons target rest ih => exact congrArg (target :: ·) (ih _)

theorem depths_search (target : Nat → Nat) (first count : Nat) (h : 0 < count) :
    (search target first count).depths = (List.range' first count).map target := by
  fun_induction search target first count with
  | case1 first count hle =>
    obtain rfl : count = 1 := by omega
    rfl
  | case2 first count hle ihlow ihhigh =>
    rw [depths, ihlow (by omega), ihhigh (by omega), ← List.map_append, List.range'_append_1]
    congr 2
    omega

/-- A table is a choice between its targets and the fallback. -/
theorem depths_table (limit : Option Nat) (targets : List Nat) (fallback : Nat) :
    (table limit targets fallback).depths.Perm (targets ++ [fallback]) := by
  unfold table
  split
  · rename_i hlimit
    obtain ⟨n, -, hn⟩ := (Option.any_eq_true _ _).1 hlimit
    have hmap : (List.range' 0 targets.length).map (fun n => (targets[n]?).getD fallback) = targets := by
      refine List.ext_getElem (by simp) fun n hn hn' => ?_
      simp [List.getElem?_eq_getElem hn']
    rw [depths, depths_search _ _ _ (Nat.lt_of_le_of_lt (Nat.zero_le n) (of_decide_eq_true hn)), hmap]
    exact List.perm_append_comm
  · rw [depths_chain]

end Choice

namespace Frame

/-- `g` is `f` with other warnings. -/
def Quiet (f g : Frame) : Prop := ∃ warnings log, g = { f with warnings, log }

namespace Quiet

variable {f g h : Frame}

theorem refl (f : Frame) : Quiet f f := ⟨f.warnings, f.log, rfl⟩

theorem trans (hfg : Quiet f g) (hgh : Quiet g h) : Quiet f h := by
  obtain ⟨w, l, rfl⟩ := hfg
  obtain ⟨w', l', rfl⟩ := hgh
  exact ⟨w', l', rfl⟩

theorem warn (f : Frame) (message : String) : Quiet f (f.warn message) := ⟨_, _, rfl⟩

theorem peek (f : Frame) (n : Nat) : Quiet f (f.peek n).2 := by
  unfold Frame.peek
  split
  · exact warn f _
  · split <;> exact refl f

theorem peek_fst (h : Quiet f g) (n : Nat) : (g.peek n).1 = (f.peek n).1 := by
  obtain ⟨w, l, rfl⟩ := h
  by_cases hd : f.depth ≤ f.floor + n
  · rw [Frame.peek, Frame.peek, if_pos hd, if_pos (by exact hd)]
  · rw [Frame.peek, Frame.peek, if_neg hd, if_neg (by exact hd)]
    cases f.stack[n]? <;> rfl

theorem peekedMany (f : Frame) (n : Nat) : Quiet f (f.peekedMany n) := by
  induction n generalizing f with
  | zero => exact refl f
  | succ n ih => exact (peek f n).trans (ih _)

theorem peeks (h : Quiet f g) (n : Nat) : g.peeks n = f.peeks n := by
  induction n generalizing f g with
  | zero => rfl
  | succ n ih =>
    have hp : Quiet (f.peek n).2 (g.peek n).2 := by
      obtain ⟨w, l, hf⟩ := peek f n
      obtain ⟨w', l', hg⟩ := h.trans (peek g n)
      rw [hf, hg]
      exact ⟨w', l', rfl⟩
    rw [Frame.peeks, Frame.peeks, h.peek_fst, ih hp]

theorem moved (h : Quiet f g) : Moved 0 f g := by
  obtain ⟨w, l, rfl⟩ := h
  exact .of_stack (.of_registers rfl rfl rfl rfl rfl rfl rfl fun hr => ⟨_, hr, rfl, rfl, rfl⟩)
    rfl rfl rfl

theorem owned (h : Quiet f g) {held : List RegisterId} (ho : f.Owned held) : g.Owned held := by
  obtain ⟨w, l, rfl⟩ := h
  exact ho.congr rfl rfl rfl rfl rfl rfl rfl

theorem accounted (h : Quiet f g) {held : List RegisterId} (ha : f.Accounted held) :
    g.Accounted held := by
  obtain ⟨w, l, rfl⟩ := h
  exact ha.congr rfl rfl rfl

end Quiet

/-- The values that the function returns from here. -/
def returned (f : Frame) : Stmt := .ret (f.peeks f.resultTypes.length)

def branchCode (f : Frame) (depth : Nat) : List Line :=
  match f.blocks[depth]? with
  | some target =>
    (target.branchRegister.elim [] fun id => Emit.copied (f.registers.slotOf id) (f.peek 0).1) ++
      [.stmt (.goto target.branchLabel)]
  | none =>
    if depth = f.blocks.length then [.stmt f.returned]
    else [Emit.warned (.unresolvedBranch depth), .stmt (.run (.error "unresolved branch target"))]

/-- The code of a choice, on its own or behind an arm of an `if`. -/
def choiceCode (f : Frame) (index : Operand) : Choice → (behind : Bool) → List Line
  | .go depth, false => f.branchCode depth
  | .go depth, true => .otherwise :: f.branchCode depth
  | .test joins t yes no, behind =>
    let arms := f.choiceCode index yes false ++ f.choiceCode index no true
    let whole := .ifThen (t.condition index) :: arms ++ [.close]
    if behind = false then whole
    else if joins then .elseIf (t.condition index) :: arms
    else .otherwise :: whole

theorem Quiet.branchCode {f g : Frame} (h : Quiet f g) (depth : Nat) :
    g.branchCode depth = f.branchCode depth := by
  have hp := h.peek_fst 0
  have hs := h.peeks f.resultTypes.length
  obtain ⟨w, l, rfl⟩ := h
  simp only [Frame.branchCode, returned, resultTypes] at hp hs ⊢
  rw [hp, hs]

/-- The lines of a branch. -/
inductive BranchLine (f : Frame) (depth : Nat) : Line → Prop
  | copy {target : Block} {id : RegisterId} (ht : f.blocks[depth]? = some target)
      (hr : target.branchRegister = some id) : BranchLine f depth
        (.stmt (.assign [.slot (f.registers.slotOf id)] (.operand (f.peek 0).1)))
  | jump {target : Block} (ht : f.blocks[depth]? = some target) :
      BranchLine f depth (.stmt (.goto target.branchLabel))
  | ret : BranchLine f depth (.stmt f.returned)
  | warned : BranchLine f depth (Emit.warned (.unresolvedBranch depth))
  | error : BranchLine f depth (.stmt (.run (.error "unresolved branch target")))

theorem branchLine_of_mem {f : Frame} {depth : Nat} {l : Line} (h : l ∈ f.branchCode depth) :
    f.BranchLine depth l := by
  unfold branchCode at h
  cases ht : f.blocks[depth]? with
  | none =>
    simp only [ht] at h
    split at h
    · exact List.mem_singleton.1 h ▸ .ret
    · simp only [List.mem_cons, List.not_mem_nil, or_false] at h
      obtain rfl | rfl := h
      · exact .warned
      · exact .error
  | some target =>
    simp only [ht] at h
    obtain h | h := List.mem_append.1 h
    · cases hr : target.branchRegister with
      | none => simp [hr] at h
      | some id =>
        simp only [hr, Option.elim_some, Emit.copied] at h
        split at h
        · exact List.mem_singleton.1 h ▸ .copy ht hr
        · cases h
    · exact List.mem_singleton.1 h ▸ .jump ht

section

variable {f : Frame} {P : Line → Prop} (hframe : ∀ l : Line, l.frames = true → P l)
include hframe

theorem forall_guarded {depth : Nat} (hb : ∀ l ∈ f.branchCode depth, P l) (condition : Expr) :
    ∀ l ∈ .ifThen condition :: f.branchCode depth ++ [.close], P l :=
  List.forall_mem_append.2 ⟨List.forall_mem_cons.2 ⟨hframe _ rfl, hb⟩,
    List.forall_mem_singleton.2 (hframe _ rfl)⟩

/-- What holds of the lines of all branches, and of lines that open or close arms, holds of the lines
of a choice. -/
theorem forall_choiceCode {c : Choice} (hb : ∀ t ∈ c.depths, ∀ l ∈ f.branchCode t, P l)
    (index : Operand) (behind : Bool) : ∀ l ∈ f.choiceCode index c behind, P l := by
  induction c generalizing behind with
  | go depth =>
    have hgo := hb depth (List.mem_singleton_self _)
    cases behind with
    | false => exact hgo
    | true => exact List.forall_mem_cons.2 ⟨hframe _ rfl, hgo⟩
  | test joins t yes no ihyes ihno =>
    obtain ⟨hyes, hno⟩ := List.forall_mem_append.1 hb
    have harms := List.forall_mem_append.2 ⟨ihyes hyes false, ihno hno true⟩
    have hwhole := List.forall_mem_append.2 ⟨List.forall_mem_cons.2
      ⟨hframe (.ifThen (t.condition index)) rfl, harms⟩, List.forall_mem_singleton.2 (hframe .close rfl)⟩
    rw [choiceCode]
    split
    · exact hwhole
    · split
      · exact List.forall_mem_cons.2 ⟨hframe _ rfl, harms⟩
      · exact List.forall_mem_cons.2 ⟨hframe _ rfl, hwhole⟩

end

/-- The number of warnings when an entry of the stack is looked at. -/
def peekWarnings (f : Frame) (n : Nat) : Nat := if f.depth ≤ f.floor + n then 1 else 0

def branchWarnings (f : Frame) (depth : Nat) : Nat :=
  match f.blocks[depth]? with
  | some target => target.branchRegister.elim 0 fun _ => f.peekWarnings 0
  | none =>
    if depth = f.blocks.length then ((List.range f.resultTypes.length).map f.peekWarnings).sum else 1

variable (f : Frame)

theorem warnings_peek (n : Nat) : (f.peek n).2.warnings = f.warnings + f.peekWarnings n := by
  unfold peek peekWarnings
  split
  · rfl
  · split <;> rfl

theorem Quiet.peekWarnings {f g : Frame} (h : Quiet f g) (n : Nat) :
    g.peekWarnings n = f.peekWarnings n := by
  obtain ⟨w, l, rfl⟩ := h
  rfl

theorem Quiet.branchWarnings {f g : Frame} (h : Quiet f g) (depth : Nat) :
    g.branchWarnings depth = f.branchWarnings depth := by
  obtain ⟨w, l, rfl⟩ := h
  rfl

theorem warnings_peekedMany (n : Nat) :
    (f.peekedMany n).warnings = f.warnings + ((List.range n).map f.peekWarnings).sum := by
  induction n generalizing f with
  | zero => rfl
  | succ n ih =>
    have hsame : (f.peek n).2.peekWarnings = f.peekWarnings :=
      funext fun k => (Quiet.peek f n).peekWarnings k
    rw [peekedMany, ih, warnings_peek, hsame, List.range_succ, List.map_append, List.sum_append]
    simp only [List.map_cons, List.map_nil, List.sum_singleton]
    omega

open Moonstack.Flow

theorem shape_copied (slot : Nat) (value : Operand) : Shape [] (Emit.copied slot value) := by
  unfold Emit.copied
  split
  · exact .stmt _
  · exact .nil

theorem shape_branchCode (depth : Nat) : Shape [] (f.branchCode depth) := by
  unfold branchCode
  cases f.blocks[depth]? with
  | none =>
    simp only
    split
    · exact .stmt _
    · exact (Nested.comment _).append (.stmt _)
  | some target =>
    refine Nested.append (?_ : Shape [] _) (.stmt _)
    cases target.branchRegister with
    | none => exact .nil
    | some id => exact shape_copied _ _

/-- A choice is an expression of statements, and behind an arm it is further arms. -/
theorem shape_choiceCode (index : Operand) (c : Choice) :
    Shape [] (f.choiceCode index c false) ∧ Inner [] (f.choiceCode index c true) := by
  induction c with
  | go depth =>
    have hgo := f.shape_branchCode depth
    exact ⟨hgo, Nested.otherwise.append hgo.inner⟩
  | test joins t yes no ihyes ihno =>
    have harms := ihyes.1.inner.append ihno.2
    have hwhole := Nested.ifThen harms (t.condition index)
    refine ⟨hwhole, ?_⟩
    rw [choiceCode, if_neg (by decide)]
    split
    · exact (Nested.elseIf _).append harms
    · exact Nested.otherwise.append hwhole.inner

end Frame

namespace Emit

open Moonstack.Frame

/-- A computation that writes `code` and changes nothing but warnings. -/
def Branches (x : Emit Unit) (f : Frame) (code : List Line) : Prop :=
  ∃ g, Quiet f g ∧ Writes x f () g code

/-- From `f` and all frames that differ from it in warnings only, the computation writes `code`, adds
`count` warnings and changes nothing else. -/
def Adds (f : Frame) (x : Emit Unit) (code : List Line) (count : Nat) : Prop :=
  ∀ g, Quiet f g → ∃ h, Quiet f h ∧ Writes x g () h code ∧ h.warnings = g.warnings + count

namespace Adds

variable {f : Frame} {x : Emit Unit} {k : Unit → Emit Unit} {code more : List Line}
  {count count' : Nat}

theorem branches (h : Adds f x code count) : Branches x f code := by
  obtain ⟨g, hg, hw, -⟩ := h f (.refl f)
  exact ⟨g, hg, hw⟩

theorem bind (hx : Adds f x code count) (hk : Adds f (k ()) more count') :
    Adds f (x >>= k) (code ++ more) (count + count') := by
  intro g hg
  obtain ⟨h, hh, hw, hn⟩ := hx g hg
  obtain ⟨h', hh', hw', hn'⟩ := hk h hh
  exact ⟨h', hh', hw.bind hw', by omega⟩

/-- A computation that leaves every frame as it is. -/
theorem none (hx : ∀ g, Writes x g () g code) : Adds f x code 0 := fun g hg => ⟨g, hg, hx g, rfl⟩

theorem line (l : Line) : Adds f (Emit.line l) [l] 0 := .none (writes_line l)

theorem deeper : Adds f Emit.deeper [] 0 := .none writes_deeper

theorem shallower : Adds f Emit.shallower [] 0 := .none writes_shallower

/-- What is written one level deeper. -/
theorem inset (h : Adds f x code count) :
    Adds f (Emit.inset x) code count := by
  have hinset := deeper.bind (k := fun _ => do x; Emit.shallower)
    (h.bind (k := fun _ => Emit.shallower) shallower)
  rwa [List.append_nil, Nat.zero_add] at hinset

theorem congr (h : Adds f x code count) (hn : count = count') : Adds f x code count' := hn ▸ h

end Adds

variable (f : Frame)

theorem branches_leaveFunction : Branches leaveFunction f [.stmt f.returned] :=
  ⟨_, .peekedMany f _, (writes_frame f).silent
    ((writes_peekMany f f.resultTypes.length).silent (writes_stmt _ _))⟩

/-- What is written for a branch. -/
theorem adds_branch (depth : Nat) :
    Adds f (branch depth) (f.branchCode depth) (f.branchWarnings depth) := by
  intro g hg
  rw [← hg.branchCode, ← hg.branchWarnings]
  refine Exists.imp (fun h hh => ⟨hg.trans hh.1, (writes_frame g).silent hh.2.1, hh.2.2⟩)
    (?_ : ∃ h, Quiet g h ∧ Writes _ g () h (g.branchCode depth) ∧
      h.warnings = g.warnings + g.branchWarnings depth)
  unfold branchCode branchWarnings
  cases g.blocks[depth]? with
  | none =>
    simp only
    split
    · exact ⟨_, .peekedMany g _, (writes_frame g).silent
        ((writes_peekMany g _).silent (writes_stmt _ _)), warnings_peekedMany g _⟩
    · exact ⟨_, .warn g _, (writes_warn _ g).bind (writes_stmt _ _), rfl⟩
  | some target =>
    simp only
    cases target.branchRegister with
    | none => exact ⟨g, .refl g, writes_stmt _ g, rfl⟩
    | some id =>
      have hslot : (g.peek 0).2.registers = g.registers := by
        obtain ⟨w, l, hq⟩ := Quiet.peek g 0
        rw [hq]
      refine ⟨_, .peek g 0, (writes_step _ g).silent ?_, warnings_peek g 0⟩
      exact hslot ▸ (writes_copy id _ _).bind (writes_stmt _ _)

theorem branches_branch (depth : Nat) : Branches (branch depth) f (f.branchCode depth) :=
  (adds_branch f depth).branches

theorem writes_branchIf (depth : Nat) : ∃ g, Quiet f.popped g ∧
    Writes (branchIf depth) f () g (.ifThen (.binary .ne (.operand f.top) (.number 0)) ::
      f.popped.branchCode depth ++ [.close]) := by
  obtain ⟨g, hg, hw⟩ := (adds_branch f.popped depth).inset.branches
  exact ⟨g, hg, (writes_pop f).silent ((writes_line _ _).bind (hw.bind (writes_line _ _)))⟩

/-- A choice adds the warnings of all its branches. -/
theorem adds_choose (index : Operand) (c : Choice) (behind : Bool) :
    Adds f (choose index c behind) (f.choiceCode index c behind)
      (c.depths.map f.branchWarnings).sum := by
  induction c generalizing behind with
  | go depth =>
    cases behind with
    | false => exact (adds_branch f depth).congr (by simp [Choice.depths])
    | true =>
      exact ((Adds.line _).bind (adds_branch f depth).inset).congr (by simp [Choice.depths])
  | test joins t yes no ihyes ihno =>
    rw [Choice.depths, List.map_append, List.sum_append, choose, choiceCode]
    have harms := (ihyes false).inset.bind (k := fun _ => choose index no true) (ihno true)
    have hclosed := (harms.bind (k := fun _ => line .close) (.line .close)).congr (Nat.add_zero _)
    have hwhole := ((Adds.line (.ifThen (t.condition index))).bind (k := fun _ => do
      (do inset (choose index yes false); choose index no true)
      line .close) hclosed).congr (Nat.zero_add _)
    split
    · exact hwhole
    · split
      · exact ((Adds.line _).bind harms).congr (Nat.zero_add _)
      · exact ((Adds.line _).bind hwhole.inset).congr (Nat.zero_add _)

/-- A branch table that is too wide is refused. -/
theorem fails_branchTable {env : Env} {targets : List Nat} {fallback : Nat}
    (h : env.options.branchTableLimit < targets.length + 1) :
    Fails (branchTable env targets fallback) f
      (.rejected (.wideBranchTable (targets.length + 1) env.options.branchTableLimit)) := by
  unfold branchTable
  simp only [if_pos h]
  exact (Fails.throw f _).bind

variable {env : Env} {targets : List Nat} {fallback : Nat}
  (h : ¬ env.options.branchTableLimit < targets.length + 1)
include h

/-- The code of a branch table, which adds the warnings of all its branches. -/
theorem writes_branchTable : ∃ g, Quiet f.popped g ∧
    Writes (branchTable env targets fallback) f () g
      (f.popped.choiceCode f.top (.table env.options.bisectAbove targets fallback) false) ∧
      g.warnings = f.popped.warnings + ((targets ++ [fallback]).map f.popped.branchWarnings).sum := by
  unfold branchTable
  simp only [if_neg h]
  obtain ⟨g, hg, hw, hn⟩ := adds_choose f.popped f.top
    (.table env.options.bisectAbove targets fallback) false f.popped (.refl _)
  refine ⟨g, hg, (writes_pop f).silent hw, hn.trans ?_⟩
  rw [((Choice.depths_table _ targets fallback).map _).sum_nat]

end Emit

end Moonstack
