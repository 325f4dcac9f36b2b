import Moonstack.Proofs.Binary.Flattening
import Moonstack.Proofs.Simulation.Functions

/-!
# Offsets of the instructions of a stream

The offsets of a tree are those that its flattened form keeps (`Instr.bodyOffsets_flatten`). Reading
keeps operators in order and none more than once, so every instruction of the tree of a stream
stands at an operator of its own, and operators at different places give instructions at different
places (`Stream.nodup_offsets`).
-/

namespace Moonstack

namespace PlacedOperator

/-- If the offset of an operator is kept, it is the one in the stream. -/
theorem fst_of_flat {p : PlacedOperator} {offset : Nat} (h : p.flat.1 = some offset) :
    p.1 = offset := by
  obtain ⟨k, o⟩ := p
  cases o <;> cases h <;> rfl

theorem sublist_flat (operators : List PlacedOperator) :
    ((operators.map flat).filterMap Prod.fst).Sublist (operators.map Prod.fst) := by
  induction operators with
  | nil => exact .slnil
  | cons p rest ih =>
    rw [List.map_cons, List.filterMap_cons, List.map_cons]
    cases h : p.flat.1 with
    | none => exact ih.cons _
    | some offset =>
      rw [fst_of_flat h]
      exact ih.cons_cons _

end PlacedOperator

namespace Instr

mutual

/-- The offsets that a flattened tree keeps are those of the tree, each instruction in front of
those inside it. -/
theorem offsets_flatten : (i : Instr) → i.flatten.filterMap Prod.fst = i.offsets
  | leaf _ _ => rfl
  | block _ _ body | loop _ _ body | ifThen _ _ body => by
    simp [flatten, offsets, bodyOffsets_flatten body]
  | ifElse _ _ body other => by
    simp [flatten, offsets, bodyOffsets_flatten body, bodyOffsets_flatten other]

theorem bodyOffsets_flatten : (code : List Instr) →
    (bodyFlatten code).filterMap Prod.fst = bodyOffsets code
  | [] => rfl
  | i :: rest => by
    rw [bodyFlatten, List.filterMap_append, offsets_flatten i, bodyOffsets_flatten rest,
      bodyOffsets]

end

end Instr

/-- **Operators at different places give instructions at different places.** -/
theorem Stream.nodup_offsets {s : Stream} {body : List Instr} (h : s.instructions = .ok body)
    (hs : (s.operators.map Prod.fst).Nodup) : (Instr.bodyOffsets body).Nodup := by
  obtain ⟨rest, heq, -⟩ := exists_append_bodyOperators 0 s.operators
  have hfront : bodyOperators 0 s.operators <+: s.operators := ⟨rest, heq.symm⟩
  have hkept : (Instr.bodyFlatten body).Sublist
      ((bodyOperators 0 s.operators).map PlacedOperator.flat) := (Nesting.keeps_read h nofun).1
  rw [← Instr.bodyOffsets_flatten]
  exact hs.sublist ((hkept.filterMap _).trans
    ((PlacedOperator.sublist_flat _).trans (hfront.sublist.map _)))

end Moonstack
