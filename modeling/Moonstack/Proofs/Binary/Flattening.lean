import Mathlib.Data.List.Infix
import Moonstack.Binary.Nesting

/-!
# Flattening

A tree of instructions as the list of operators it was read from (`Instr.bodyFlatten`). Reading
keeps every operator in front of the `end` of the body, in order and once, exactly if no `if` has a
second `else` (`Stream.flatten_instructions`). Where one has, the first arm of the `if` is lost, and
what is left is still in order.

What has been read is a list of operators as well (`Nesting.flatten`). Every step of the reading
appends its operator to it, but for the second `else`, which drops an arm.
-/

namespace Moonstack

/-- An operator with its offset, if the offset is kept. -/
abbrev FlatOperator := Option Nat × Operator

/-- An operator in a flattened tree: it does not keep the offsets of `else` and `end`. -/
def PlacedOperator.flat : PlacedOperator → FlatOperator
  | (_, .otherwise) => (none, .otherwise)
  | (_, .finish) => (none, .finish)
  | (offset, o) => (some offset, o)

def BlockType.ofResult : Option ValueType → BlockType
  | none => .empty
  | some type => .value (.number type)

theorem BlockType.eq_ofResult {type : BlockType} {result : Option ValueType}
    (h : type.lowered = .ok result) : type = .ofResult result := by
  cases type with
  | empty =>
    cases h
    rfl
  | value type =>
    cases type with
    | number type =>
      cases h
      rfl
    | _ => cases h
  | signature index => cases h

def BlockKind.opening (kind : BlockKind) (type : BlockType) : Operator :=
  match kind with
  | block => .block type
  | loop => .loop type
  | cond => .cond type

namespace Instr

mutual

def flatten : Instr → List FlatOperator
  | leaf offset op => [(some offset, .leaf op)]
  | block offset result body =>
    (some offset, .block (.ofResult result)) :: bodyFlatten body ++ [(none, .finish)]
  | loop offset result body =>
    (some offset, .loop (.ofResult result)) :: bodyFlatten body ++ [(none, .finish)]
  | ifThen offset result body =>
    (some offset, .cond (.ofResult result)) :: bodyFlatten body ++ [(none, .finish)]
  | ifElse offset result body other =>
    (some offset, .cond (.ofResult result)) :: bodyFlatten body ++
      (none, .otherwise) :: bodyFlatten other ++ [(none, .finish)]

def bodyFlatten : List Instr → List FlatOperator
  | [] => []
  | i :: rest => i.flatten ++ bodyFlatten rest

end

theorem bodyFlatten_append (code more : List Instr) :
    bodyFlatten (code ++ more) = bodyFlatten code ++ bodyFlatten more := by
  induction code with
  | nil => rfl
  | cons i rest ih => rw [List.cons_append, bodyFlatten, ih, bodyFlatten, List.append_assoc]

theorem bodyFlatten_reverse_cons (i : Instr) (code : List Instr) :
    bodyFlatten (i :: code).reverse = bodyFlatten code.reverse ++ i.flatten := by
  rw [List.reverse_cons, bodyFlatten_append, bodyFlatten, bodyFlatten, List.append_nil]

end Instr

open Instr

/-- The operators in front of the `end` that ends the body, with `depth` blocks open. -/
def bodyOperators : Nat → List PlacedOperator → List PlacedOperator
  | _, [] => []
  | depth, (offset, o) :: rest =>
    match o with
    | .block _ | .loop _ | .cond _ => (offset, o) :: bodyOperators (depth + 1) rest
    | .otherwise | .leaf _ => (offset, o) :: bodyOperators depth rest
    | .finish =>
      match depth with
      | 0 => []
      | depth + 1 => (offset, .finish) :: bodyOperators depth rest

/-- Has an `if` of the body a second `else`? For the open blocks, the innermost first, it is known
whether they had one. -/
def repeatsElse : List Bool → List PlacedOperator → Bool
  | _, [] => false
  | had, (_, o) :: rest =>
    match o with
    | .block _ | .loop _ | .cond _ => repeatsElse (false :: had) rest
    | .leaf _ => repeatsElse had rest
    | .otherwise =>
      match had with
      | [] => false
      | inner :: outer => inner || repeatsElse (true :: outer) rest
    | .finish =>
      match had with
      | [] => false
      | _ :: outer => repeatsElse outer rest

/-- The operators of the body are followed by its `end` or by nothing. -/
theorem exists_append_bodyOperators (depth : Nat) (operators : List PlacedOperator) :
    ∃ rest, operators = bodyOperators depth operators ++ rest ∧
      (rest = [] ∨ ∃ offset more, rest = (offset, .finish) :: more) := by
  induction operators generalizing depth with
  | nil => exact ⟨[], rfl, .inl rfl⟩
  | cons operator operators ih =>
    obtain ⟨offset, o⟩ := operator
    cases o with
    | block type | loop type | cond type =>
      obtain ⟨rest, heq, hrest⟩ := ih (depth + 1)
      exact ⟨rest, congrArg _ heq, hrest⟩
    | otherwise | leaf op =>
      obtain ⟨rest, heq, hrest⟩ := ih depth
      exact ⟨rest, congrArg _ heq, hrest⟩
    | finish =>
      cases depth with
      | zero => exact ⟨_, rfl, .inr ⟨offset, operators, rfl⟩⟩
      | succ depth =>
        obtain ⟨rest, heq, hrest⟩ := ih depth
        exact ⟨rest, congrArg _ heq, hrest⟩

namespace OpenBlock

/-- What has been read of a block and of what stands in front of it, without the arm that is being
read. -/
def flatten (b : OpenBlock) : List FlatOperator :=
  bodyFlatten b.before.reverse ++ (some b.offset, b.kind.opening (.ofResult b.result)) ::
    b.firstArm.elim [] fun arm => bodyFlatten arm ++ [(none, .otherwise)]

/-- Only an `if` has a first arm. -/
def Proper (b : OpenBlock) : Prop := b.firstArm.isSome = true → b.kind = .cond

theorem flatten_close {b : OpenBlock} (hb : b.Proper) (body : List Instr) :
    bodyFlatten b.before.reverse ++ (b.close body).flatten =
      b.flatten ++ bodyFlatten body ++ [(none, .finish)] := by
  obtain ⟨kind, offset, result, firstArm, before⟩ := b
  cases firstArm with
  | none =>
    cases kind <;> simp [close, flatten, Instr.flatten, BlockKind.opening]
  | some arm =>
    obtain rfl : kind = .cond := hb rfl
    simp [close, flatten, Instr.flatten, BlockKind.opening]

end OpenBlock

namespace Nesting

/-- What has been read. -/
def flatten (n : Nesting) : List FlatOperator :=
  n.opened.reverse.flatMap OpenBlock.flatten ++ bodyFlatten n.body.reverse

def had (n : Nesting) : List Bool := n.opened.map fun b => b.firstArm.isSome

/-- Only `if`s have first arms. -/
def Proper (n : Nesting) : Prop := ∀ b ∈ n.opened, b.Proper

variable {n n' : Nesting} {offset : Nat}

theorem flatten_enter {kind : BlockKind} {type : BlockType}
    (h : n.enter kind offset type = .ok n') (hn : n.Proper) :
    n'.flatten = n.flatten ++ [(some offset, kind.opening type)] ∧
      n'.opened.length = n.opened.length + 1 ∧ n'.had = false :: n.had ∧ n'.Proper := by
  unfold enter at h
  cases hr : type.lowered with
  | error failure =>
    rw [hr] at h
    cases h
  | ok result =>
    rw [hr] at h
    cases h
    obtain rfl := BlockType.eq_ofResult hr
    refine ⟨?_, rfl, rfl, List.forall_mem_cons.2 ⟨nofun, hn⟩⟩
    simp [flatten, OpenBlock.flatten, bodyFlatten]

/-- The alternative of an `if`. A first arm that has been read before is lost. -/
theorem flatten_alternative (h : n.alternative offset = .ok n') (hn : n.Proper) :
    ∃ inner outer, n.had = inner :: outer ∧ n'.had = true :: outer ∧
      n'.opened.length = n.opened.length ∧ n'.Proper ∧
      (inner = false → n'.flatten = n.flatten ++ [(none, .otherwise)]) ∧
      (inner = true → n'.flatten.Sublist (n.flatten ++ [(none, .otherwise)]) ∧
        n'.flatten.length < n.flatten.length + 1) := by
  unfold alternative at h
  cases hopened : n.opened with
  | nil =>
    rw [hopened] at h
    cases h
  | cons b outer =>
    rw [hopened] at h
    simp only at h
    split at h
    · rename_i hkind
      cases h
      refine ⟨_, _, by rw [had, hopened]; rfl, rfl, rfl, ?_, fun hnone => ?_, fun hsome => ?_⟩
      · rw [Proper, hopened] at hn
        exact List.forall_mem_cons.2 ⟨fun _ => hkind, (List.forall_mem_cons.1 hn).2⟩
      · have harm : b.firstArm = none := by simpa using hnone
        simp [flatten, hopened, OpenBlock.flatten, harm, bodyFlatten]
      · obtain ⟨arm, harm⟩ := Option.isSome_iff_exists.1 hsome
        obtain ⟨front, hfront⟩ : ∃ front, front = outer.reverse.flatMap OpenBlock.flatten ++
          (bodyFlatten b.before.reverse ++ [(some b.offset, b.kind.opening (.ofResult b.result))]) :=
            ⟨_, rfl⟩
        have hold : n.flatten = front ++ (bodyFlatten arm ++ [(none, .otherwise)]) ++
            bodyFlatten n.body.reverse := by
          simp [flatten, hopened, OpenBlock.flatten, harm, hfront]
        have hnew : flatten { opened := { b with firstArm := some n.body.reverse } :: outer } =
            front ++ bodyFlatten n.body.reverse ++ [(none, .otherwise)] := by
          simp [flatten, OpenBlock.flatten, hfront, bodyFlatten]
        rw [hold, hnew]
        refine ⟨?_, ?_⟩
        · exact ((List.sublist_append_left front _).append_right _).append_right _
        · simp only [List.length_append, List.length_singleton]
          omega
    · cases h

theorem flatten_close {b : OpenBlock} {outer : List OpenBlock} (hopened : n.opened = b :: outer)
    (hn : n.Proper) :
    flatten { opened := outer, body := b.close n.body.reverse :: b.before } =
      n.flatten ++ [(none, .finish)] := by
  rw [Proper, hopened] at hn
  have hclose := OpenBlock.flatten_close (List.forall_mem_cons.1 hn).1 n.body.reverse
  rw [flatten, bodyFlatten_reverse_cons, hclose, flatten, hopened]
  simp only [List.reverse_cons, List.flatMap_append, List.flatMap_cons, List.flatMap_nil,
    List.append_nil, List.append_assoc]

theorem flatten_leaf (n : Nesting) (offset : Nat) (op : Op) :
    flatten { n with body := .leaf offset op :: n.body } = n.flatten ++ [(some offset, .leaf op)] := by
  simp only [flatten, bodyFlatten_reverse_cons, Instr.flatten, List.append_assoc]

/-- The operators `kept` are some of the operators `all`, in order, and all of them unless an `else` is
repeated. -/
def Keeps (repeated : Bool) (kept all : List FlatOperator) : Prop :=
  kept.Sublist all ∧ (kept = all ↔ repeated = false)

/-- **What is kept of a stream.** -/
theorem keeps_read {broken : Bool} {operators : List PlacedOperator} {body : List Instr}
    (h : n.read broken operators = .ok body) (hn : n.Proper) :
    Keeps (repeatsElse n.had operators) (bodyFlatten body)
      (n.flatten ++ (bodyOperators n.opened.length operators).map PlacedOperator.flat) := by
  have hdone : ∀ {n : Nesting}, n.opened = [] → bodyFlatten n.body.reverse = n.flatten := by
    intro n hopened
    simp [flatten, hopened]
  induction operators generalizing n with
  | nil =>
    rw [read] at h
    split at h
    · cases h
    · split at h
      · rename_i hempty
        cases h
        have hflat := hdone (List.isEmpty_iff.1 hempty)
        simp [Keeps, repeatsElse, bodyOperators, hflat]
      · cases h
  | cons operator rest ih =>
    obtain ⟨offset, o⟩ := operator
    have henter : ∀ {kind : BlockKind} {type : BlockType},
        (do read (← n.enter kind offset type) broken rest) = .ok body →
        Keeps (repeatsElse (false :: n.had) rest) (bodyFlatten body)
          (n.flatten ++ (some offset, kind.opening type) ::
            (bodyOperators (n.opened.length + 1) rest).map PlacedOperator.flat) := by
      intro kind type h
      cases he : n.enter kind offset type with
      | error failure =>
        rw [he] at h
        cases h
      | ok n' =>
        rw [he] at h
        obtain ⟨hflat, hlen, hhad, hproper⟩ := flatten_enter he hn
        have hrest := ih h hproper
        rwa [hflat, hlen, hhad, List.append_assoc] at hrest
    cases o with
    | block | loop | cond => exact henter h
    | otherwise =>
      rw [read] at h
      cases he : n.alternative offset with
      | error failure =>
        rw [he] at h
        cases h
      | ok n' =>
        rw [he] at h
        obtain ⟨inner, outer, hhad, hhad', hlen, hproper, hfirst, hagain⟩ := flatten_alternative he hn
        have hrest := ih h hproper
        rw [hhad', hlen] at hrest
        simp only [repeatsElse, bodyOperators, hhad, List.map_cons, PlacedOperator.flat]
        cases inner with
        | false =>
          rwa [hfirst rfl, List.append_assoc] at hrest
        | true =>
          -- the arm that is lost is missing for good
          obtain ⟨hsub, hlt⟩ := hagain rfl
          rw [List.append_cons]
          refine ⟨hrest.1.trans (hsub.append_right _), fun heq => ?_, nofun⟩
          have hle := hrest.1.length_le
          rw [heq] at hle
          simp only [List.length_append, List.length_singleton] at hle
          omega
    | finish =>
      rw [read] at h
      cases hopened : n.opened with
      | nil =>
        rw [hopened] at h
        cases h
        have hflat := hdone hopened
        simp [Keeps, repeatsElse, bodyOperators, had, hopened, hflat]
      | cons b outer =>
        rw [hopened] at h
        have hproper : Proper { opened := outer, body := b.close n.body.reverse :: b.before } := by
          rw [Proper, hopened] at hn
          exact (List.forall_mem_cons.1 hn).2
        have hrest := ih h hproper
        rw [flatten_close hopened hn, List.append_assoc] at hrest
        rw [had, hopened]
        exact hrest
    | leaf op =>
      have hrest := ih h hn
      rwa [flatten_leaf, List.append_assoc] at hrest

end Nesting

/-- **Reading loses nothing but repeated arms.** The operators of the tree of a stream are operators
in front of the `end` of the body, in order and none more than once. They are all of these exactly if
no `if` has a second `else`. -/
theorem Stream.flatten_instructions {s : Stream} {body : List Instr}
    (h : s.instructions = .ok body) :
    (∃ rest, s.operators = bodyOperators 0 s.operators ++ rest ∧
      (rest = [] ∨ ∃ offset more, rest = (offset, .finish) :: more)) ∧
    (bodyFlatten body).Sublist ((bodyOperators 0 s.operators).map PlacedOperator.flat) ∧
    (bodyFlatten body = (bodyOperators 0 s.operators).map PlacedOperator.flat ↔
      repeatsElse [] s.operators = false) :=
  ⟨exists_append_bodyOperators 0 s.operators, Nesting.keeps_read h nofun⟩

/-- An `if` whose alternative goes on with the given operators. -/
def elses (again : List PlacedOperator) : Stream where
  operators := [(0, .cond .empty), (2, .leaf .nop), (3, .otherwise), (4, .leaf .unreachable)] ++ again ++
    [(7, .finish), (8, .finish)]
  broken := false

/-- With the second `else` the `nop` is lost. -/
theorem Stream.flatten_instructions_elses :
    (∃ body, (elses []).instructions = .ok body ∧
      bodyFlatten body = (bodyOperators 0 (elses []).operators).map PlacedOperator.flat) ∧
    ∃ body, (elses [(5, .otherwise), (6, .leaf .drop)]).instructions = .ok body ∧
      bodyFlatten body ≠
        (bodyOperators 0 (elses [(5, .otherwise), (6, .leaf .drop)]).operators).map
          PlacedOperator.flat := by
  refine ⟨⟨_, rfl, ?_⟩, _, rfl, fun h => ?_⟩
  · exact (Stream.flatten_instructions rfl).2.2.2 rfl
  · exact absurd ((Stream.flatten_instructions rfl).2.2.1 h) (by decide)

end Moonstack
