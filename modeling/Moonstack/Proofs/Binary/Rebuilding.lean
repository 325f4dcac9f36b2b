import Moonstack.Proofs.Binary.Offsets

/-!
# Reading undoes flattening

A stream that starts with the operators of a tree and goes on with an `end` is read as this tree,
whatever follows (`Stream.instructions_flatten`). The tree keeps the offsets of its operators, in
order, so they rise in the tree as they do in the stream.

The reading keeps the open blocks on a stack, and each of them keeps what stands in front of it.
The operators of an instruction, at any depth, come to the same as if the instruction had been read
in one step (`Nesting.read_flatten`).
-/

namespace Moonstack

open Instr

namespace PlacedOperator

variable {p : PlacedOperator} {offset : Nat} {o : Operator}

theorem snd_flat (p : PlacedOperator) : p.flat.2 = p.2 := by
  obtain ⟨offset, o⟩ := p
  cases o <;> rfl

theorem eq_of_flat (h : p.flat = (some offset, o)) : p = (offset, o) :=
  Prod.ext (fst_of_flat (congrArg Prod.fst h)) ((snd_flat p).symm.trans (congrArg Prod.snd h))

theorem exists_of_flat (h : p.flat = (none, o)) : ∃ k, p = (k, o) :=
  ⟨p.1, Prod.ext rfl ((snd_flat p).symm.trans (congrArg Prod.snd h))⟩

end PlacedOperator

/-- The operators of a structured instruction with one arm: its opening, the arm and its `end`. -/
theorem exists_of_flat_construct {operators : List PlacedOperator} {offset : Nat} {o : Operator}
    {inner : List FlatOperator}
    (h : operators.map PlacedOperator.flat = (some offset, o) :: inner ++ [(none, .finish)]) :
    ∃ arm k, operators = (offset, o) :: (arm ++ [(k, .finish)]) ∧
      arm.map PlacedOperator.flat = inner := by
  obtain ⟨p, behind, rfl, hp, hbehind⟩ := List.map_eq_cons_iff.1 h
  obtain ⟨arm, last, rfl, harm, hlast⟩ := List.map_eq_append_iff.1 hbehind
  obtain ⟨q, rest, rfl, hq, hrest⟩ := List.map_eq_cons_iff.1 hlast
  obtain ⟨k, rfl⟩ := PlacedOperator.exists_of_flat hq
  rw [PlacedOperator.eq_of_flat hp, List.map_eq_nil_iff.1 hrest]
  exact ⟨arm, k, rfl, harm⟩

theorem BlockType.lowered_ofResult (result : Option ValueType) :
    (BlockType.ofResult result).lowered = .ok result := by
  cases result <;> rfl

namespace Nesting

variable {n : Nesting} {broken : Bool} {rest : List PlacedOperator}

theorem read_opening (n : Nesting) (kind : BlockKind) (offset : Nat) (result : Option ValueType) :
    n.read broken ((offset, kind.opening (.ofResult result)) :: rest) =
      read { opened := { kind, offset, result, before := n.body } :: n.opened } broken rest := by
  cases kind <;> simp only [BlockKind.opening, read, enter, BlockType.lowered_ofResult] <;> rfl

theorem read_otherwise {b : OpenBlock} {outer : List OpenBlock} (hopened : n.opened = b :: outer)
    (hkind : b.kind = .cond) (k : Nat) :
    n.read broken ((k, .otherwise) :: rest) =
      read { opened := { b with firstArm := some n.body.reverse } :: outer } broken rest := by
  simp only [read, alternative, hopened, if_pos hkind]
  rfl

theorem read_finish {b : OpenBlock} {outer : List OpenBlock} (hopened : n.opened = b :: outer)
    (k : Nat) :
    n.read broken ((k, .finish) :: rest) =
      read { opened := outer, body := b.close n.body.reverse :: b.before } broken rest := by
  simp only [read, hopened]

/-- The operators `arm` are read as the instructions `body`, whatever has been read before and
whatever follows. -/
def ReadAs (arm : List PlacedOperator) (body : List Instr) : Prop :=
  ∀ n : Nesting, ∀ broken rest,
    n.read broken (arm ++ rest) = read { n with body := body.reverse ++ n.body } broken rest

/-- A structured instruction with one arm. -/
theorem readAs_construct {arm : List PlacedOperator} {body : List Instr} (h : ReadAs arm body)
    (kind : BlockKind) (offset k : Nat) (result : Option ValueType) :
    ReadAs ((offset, kind.opening (.ofResult result)) :: (arm ++ [(k, .finish)]))
      [OpenBlock.close { kind, offset, result, before := [] } body] := by
  intro n broken rest
  rw [List.cons_append, read_opening, List.append_assoc, h, List.singleton_append,
    read_finish rfl, List.append_nil, List.reverse_reverse]
  rfl

/-- An `if` with both arms. The first arm is put aside where the `else` stands, and the second is
read as if it were a body of its own. -/
theorem readAs_ifElse {arm other : List PlacedOperator} {body alternate : List Instr}
    (h : ReadAs arm body) (h' : ReadAs other alternate) (offset j k : Nat)
    (result : Option ValueType) :
    ReadAs ((offset, .cond (.ofResult result)) :: (arm ++ (j, .otherwise) :: other ++
      [(k, .finish)])) [.ifElse offset result body alternate] := by
  intro n broken rest
  rw [List.cons_append, show Operator.cond _ = BlockKind.cond.opening (.ofResult result) from rfl,
    read_opening, List.append_assoc, List.append_assoc, h, List.cons_append,
    read_otherwise rfl rfl, h', List.singleton_append, read_finish rfl]
  simp only [List.append_nil, List.reverse_reverse]
  rfl

mutual

/-- **The operators of an instruction are read as this instruction.** -/
theorem read_flatten : (i : Instr) → (operators : List PlacedOperator) →
    operators.map PlacedOperator.flat = i.flatten → ReadAs operators [i]
  | .leaf offset op, operators, h => by
    obtain ⟨p, rest, rfl, hp, hrest⟩ := List.map_eq_cons_iff.1 h
    rw [PlacedOperator.eq_of_flat hp, List.map_eq_nil_iff.1 hrest]
    exact fun _ _ _ => rfl
  | .block offset result body, operators, h => by
    obtain ⟨arm, k, rfl, harm⟩ := exists_of_flat_construct h
    exact readAs_construct (read_bodyFlatten body arm harm) .block offset k result
  | .loop offset result body, operators, h => by
    obtain ⟨arm, k, rfl, harm⟩ := exists_of_flat_construct h
    exact readAs_construct (read_bodyFlatten body arm harm) .loop offset k result
  | .ifThen offset result body, operators, h => by
    obtain ⟨arm, k, rfl, harm⟩ := exists_of_flat_construct h
    exact readAs_construct (read_bodyFlatten body arm harm) .cond offset k result
  | .ifElse offset result body other, operators, h => by
    rw [Instr.flatten, List.cons_append, List.cons_append] at h
    obtain ⟨arms, k, rfl, harms⟩ := exists_of_flat_construct h
    obtain ⟨arm, second, rfl, harm, hsecond⟩ := List.map_eq_append_iff.1 harms
    obtain ⟨q, alternate, rfl, hq, halternate⟩ := List.map_eq_cons_iff.1 hsecond
    obtain ⟨j, rfl⟩ := PlacedOperator.exists_of_flat hq
    exact readAs_ifElse (read_bodyFlatten body arm harm)
      (read_bodyFlatten other alternate halternate) offset j k result

/-- The operators of a body are read as this body. -/
theorem read_bodyFlatten : (code : List Instr) → (operators : List PlacedOperator) →
    operators.map PlacedOperator.flat = bodyFlatten code → ReadAs operators code
  | [], operators, h => by
    rw [List.map_eq_nil_iff.1 h]
    exact fun _ _ _ => rfl
  | i :: code, operators, h => by
    obtain ⟨first, others, rfl, hfirst, hothers⟩ := List.map_eq_append_iff.1 h
    intro n broken rest
    rw [List.append_assoc, read_flatten i first hfirst, read_bodyFlatten code others hothers]
    simp only [List.reverse_cons, List.reverse_nil, List.nil_append, List.append_assoc]

end

end Nesting

/-- Offsets that rise in a stream rise in the tree that flattens to it. -/
theorem pairwise_bodyOffsets {code : List Instr} {operators : List PlacedOperator}
    (h : operators.map PlacedOperator.flat = bodyFlatten code)
    (hrise : (operators.map Prod.fst).Pairwise (· < ·)) : (bodyOffsets code).Pairwise (· < ·) := by
  rw [← bodyOffsets_flatten, ← h, List.filterMap_map]
  refine List.Pairwise.filterMap _ (fun p q hlt k hk m hm => ?_) (List.pairwise_map.1 hrise)
  rwa [PlacedOperator.fst_of_flat hk, PlacedOperator.fst_of_flat hm] at hlt

/-- **Reading undoes flattening.** Operators that are those of a tree, with an `end` behind them,
are read as this tree, offsets included. What stands behind the `end` does not matter, nor whether
it can be decoded. If the offsets of the operators rise, so do those of the tree, each instruction
taken before those inside it. -/
theorem Stream.instructions_flatten {code : List Instr} {operators : List PlacedOperator}
    (h : operators.map PlacedOperator.flat = bodyFlatten code) (last : Nat)
    (rest : List PlacedOperator) (broken : Bool) :
    Stream.instructions ⟨operators ++ (last, .finish) :: rest, broken⟩ = .ok code ∧
      ((operators.map Prod.fst).Pairwise (· < ·) → (bodyOffsets code).Pairwise (· < ·)) := by
  refine ⟨?_, pairwise_bodyOffsets h⟩
  rw [Stream.instructions, Nesting.read_bodyFlatten code operators h, Nesting.read,
    List.append_nil, List.reverse_reverse]

/-- An `if` without an alternative, one with an empty alternative and one with a loop in it, all in
a block that leaves a value. -/
def alternatives : List Instr :=
  [.block 4 (some .i32) [
    .ifThen 6 none [.leaf 8 .nop],
    .ifElse 10 none [.leaf 12 .nop] [],
    .ifElse 16 (some .i32) [.leaf 18 (.localGet 0)] [.loop 21 none [.leaf 23 (.br 0)]]]]

def alternativesOperators : List PlacedOperator :=
  [(4, .block (.value (.number .i32))), (6, .cond .empty), (8, .leaf .nop), (9, .finish),
    (10, .cond .empty), (12, .leaf .nop), (13, .otherwise), (14, .finish),
    (16, .cond (.value (.number .i32))), (18, .leaf (.localGet 0)), (20, .otherwise),
    (21, .loop .empty), (23, .leaf (.br 0)), (25, .finish), (26, .finish), (27, .finish)]

/-- Behind the body stands an `else` that belongs to nothing, and then bytes that cannot be
decoded. -/
theorem Stream.instructions_flatten_alternatives :
    Stream.instructions ⟨alternativesOperators ++ [(28, .finish), (29, .otherwise)], true⟩ =
        .ok alternatives ∧ (bodyOffsets alternatives).Pairwise (· < ·) := by
  have hflat : alternativesOperators.map PlacedOperator.flat = bodyFlatten alternatives := rfl
  obtain ⟨hread, hrise⟩ := Stream.instructions_flatten hflat 28 [(29, .otherwise)] true
  exact ⟨hread, hrise (by decide)⟩

end Moonstack
