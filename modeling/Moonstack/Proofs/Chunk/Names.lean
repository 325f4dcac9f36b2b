import Moonstack.Chunk.Declaration
import Moonstack.Proofs.Emission.Passes

/-!
# Names of functions

The expressions that functions are called by come from names in the binary, which are arbitrary
texts. Whatever the names are, the expressions are neutral: an import is a path of fields, where a
name that is no identifier is quoted, and a definition has an identifier.
-/

namespace Moonstack

namespace Identifier

theorem isPlain_sanitize (name : String) : (sanitize name).toList.all isPlain = true :=
  List.all_eq_true.2 fun c hc => isPlain_of_isPart (isPart_sanitize name c hc)

end Identifier

theorem Import.neutral_place (i : Import) : Neutral i.place.text :=
  Expr.neutral_text _ (Expr.tidy_member (Expr.tidy_member (Expr.tidy_helper _) _) _)

namespace Registry

theorem isPlain_unusedFrom (used : List String) (n : Nat) {name : String}
    (h : name.toList.all isPlain = true) : (unusedFrom used n name).toList.all isPlain = true := by
  induction n generalizing name with
  | zero => exact h
  | succ n ih =>
    rw [unusedFrom]
    split
    · apply ih
      rw [String.toList_push, List.all_append, h]
      rfl
    · exact h

theorem neutral_uniqueId (r : Registry) (name : String) (index : Nat) :
    Neutral (r.uniqueId name index).1 := by
  have hbase := Identifier.isPlain_sanitize name
  refine neutral_of_isPlain ?_
  unfold uniqueId
  simp only
  split
  · apply isPlain_unusedFrom
    have htext : s!"{Identifier.sanitize name}_{index}" =
        Identifier.sanitize name ++ "_" ++ toString index := rfl
    rw [htext, String.toList_append, String.toList_append, List.all_append, List.all_append, hbase,
      isPlain_toString]
    rfl
  · exact hbase

namespace Tidy

variable {r r' : Registry}

variable (h : r.Tidy)
include h

theorem of_functions (hf : r'.functions = r.functions) : r'.Tidy := by
  intro index entry he
  rw [function?, hf] at he
  exact h index entry he

theorem addFunction {entry : FunctionEntry} (he : Neutral entry.id) :
    (r.addFunction entry).2.Tidy := by
  intro index entry' he'
  rw [function?, Registry.addFunction, Array.getElem?_push] at he'
  split at he'
  · cases he'
    exact he
  · exact h index entry' he'

theorem declareImport (i : Import) : (r.declareImport i).2.Tidy := by
  unfold Registry.declareImport
  split
  · exact h.addFunction i.neutral_place
  · exact h.of_functions rfl
  · exact h.of_functions rfl
  · exact h.of_functions rfl

theorem declareImports (imports : List Import) : (r.declareImports imports).2.Tidy := by
  induction imports generalizing r with
  | nil => exact h
  | cons i rest ih => exact ih (h.declareImport i)

theorem declareFunction (m : Module) (f : Function) : (r.declareFunction m f).Tidy := by
  have hid : (r.uniqueId (m.functionName r.functions.size f) r.functions.size).2.Tidy :=
    h.of_functions rfl
  exact hid.addFunction (neutral_uniqueId _ _ _)

theorem declareFields (m : Module) (fields : List Field) : (r.declareFields m fields).2.Tidy := by
  induction fields generalizing r with
  | nil => exact h
  | cons f rest ih =>
    cases f with
    | function f => exact ih (h.declareFunction m f)
    | _ => exact ih (h.of_functions rfl)

end Tidy

/-- Whatever a module calls its functions, they are called by neutral texts. -/
theorem tidy_ofModule (m : Module) : (ofModule m).2.Tidy := by
  have hempty : ({ types := m.types } : Registry).Tidy := by
    intro index entry he
    simp [function?] at he
  exact (hempty.declareImports m.imports).declareFields m m.fields

end Registry

end Moonstack
