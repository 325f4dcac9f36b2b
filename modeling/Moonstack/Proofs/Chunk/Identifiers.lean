import Mathlib.Data.List.Nodup
import Mathlib.Data.List.Perm.Subperm
import Mathlib.Data.List.Range
import Moonstack.Proofs.Chunk.Index

/-!
# Identifiers of functions

Which identifier a defined function gets (`chosen_idOf`), and that no two get the same
(`nodup_idOf`).

A function is called by its sanitized name, unless a function in front of it is called so; then the
index is added, and as many underscores as it takes to find an identifier that is not used. The
search ends, since among one more candidate than there are used identifiers one is free.
-/

namespace Moonstack

namespace Registry

def underscored (name : String) (k : Nat) : String := name ++ String.ofList (List.replicate k '_')

theorem underscored_zero (name : String) : underscored name 0 = name :=
  String.toList_injective (by simp [underscored])

theorem underscored_push (name : String) (k : Nat) :
    underscored (name.push '_') k = underscored name (k + 1) :=
  String.toList_injective (by simp [underscored, List.replicate_succ])

theorem underscored_injective (name : String) : Function.Injective (underscored name) := by
  intro j k h
  have hlength := congrArg (fun s => s.toList.length) h
  simpa [underscored] using hlength

/-- Underscores are added until the name is unused, up to the bound. -/
theorem unusedFrom_eq (used : List String) (n : Nat) (name : String) :
    ∃ k ≤ n, unusedFrom used n name = underscored name k ∧
      (∀ j < k, underscored name j ∈ used) ∧ (k < n → underscored name k ∉ used) := by
  induction n generalizing name with
  | zero => exact ⟨0, Nat.le_refl 0, (underscored_zero name).symm, nofun, nofun⟩
  | succ n ih =>
    rw [unusedFrom]
    split
    · rename_i hused
      obtain ⟨k, hk, heq, hbefore, hfree⟩ := ih (name.push '_')
      rw [underscored_push] at heq hfree
      refine ⟨k + 1, by omega, heq, ?_, fun h => hfree (by omega)⟩
      rintro (_ | j) hj
      · rw [underscored_zero]
        exact List.contains_iff_mem.1 hused
      · rw [← underscored_push]
        exact hbefore j (by omega)
    · rename_i hfree
      rw [List.contains_iff_mem] at hfree
      refine ⟨0, by omega, (underscored_zero name).symm, nofun, fun _ => ?_⟩
      rwa [underscored_zero]

/-- There are at least as many used identifiers as candidates among them. -/
theorem le_length_of_underscored {used : List String} {name : String} {n : Nat}
    (h : ∀ j < n, underscored name j ∈ used) : n ≤ used.length := by
  have hnodup : ((List.range n).map (underscored name)).Nodup :=
    List.nodup_range.map (underscored_injective name)
  have hsub : (List.range n).map (underscored name) ⊆ used := by
    intro s hs
    obtain ⟨j, hj, rfl⟩ := List.mem_map.1 hs
    exact h j (List.mem_range.1 hj)
  have hle := (List.subperm_of_subset hnodup hsub).length_le
  rwa [List.length_map, List.length_range] at hle

/-- With one step for each used identifier the search ends at one that is not used. -/
theorem unusedFrom_length (used : List String) (name : String) :
    ∃ k, unusedFrom used used.length name = underscored name k ∧
      (∀ j < k, underscored name j ∈ used) ∧ underscored name k ∉ used := by
  obtain ⟨k, hk, heq, hbefore, hfree⟩ := unusedFrom_eq used used.length name
  refine ⟨k, heq, hbefore, fun hused => ?_⟩
  obtain hlt | rfl := Nat.lt_or_eq_of_le hk
  · exact hfree hlt hused
  · have hall : ∀ j < used.length + 1, underscored name j ∈ used := by
      intro j hj
      obtain hlt | rfl := Nat.lt_or_eq_of_le (Nat.le_of_lt_succ hj)
      · exact hbefore j hlt
      · exact hused
    have hle := le_length_of_underscored hall
    omega

/-- The sanitized name of a function with its index. -/
def numbered (name : String) (index : Nat) : String := s!"{Identifier.sanitize name}_{index}"

/-- The identifier of a function of the given name and index where others are used. -/
inductive Chosen (used : List String) (name : String) (index : Nat) : String → Prop
  | own (hfree : Identifier.sanitize name ∉ used) : Chosen used name index (Identifier.sanitize name)
  /-- its own name is used, and so are the candidates with fewer underscores -/
  | suffixed {k : Nat} (hused : Identifier.sanitize name ∈ used)
      (hbefore : ∀ j < k, underscored (numbered name index) j ∈ used)
      (hfree : underscored (numbered name index) k ∉ used) :
      Chosen used name index (underscored (numbered name index) k)

theorem Chosen.not_mem {used : List String} {name id : String} {index : Nat}
    (h : Chosen used name index id) : id ∉ used := by
  cases h with
  | own hfree | suffixed _ _ hfree => exact hfree

theorem Chosen.congr {used used' : List String} {name id : String} {index : Nat}
    (h : Chosen used name index id) (hmem : ∀ s, s ∈ used ↔ s ∈ used') :
    Chosen used' name index id := by
  cases h with
  | own hfree => exact .own fun hs => hfree ((hmem _).2 hs)
  | suffixed hused hbefore hfree =>
    exact .suffixed ((hmem _).1 hused) (fun j hj => (hmem _).1 (hbefore j hj))
      fun hs => hfree ((hmem _).2 hs)

theorem chosen_uniqueId (r : Registry) (name : String) (index : Nat) :
    Chosen r.usedIds name index (r.uniqueId name index).1 := by
  unfold uniqueId
  simp only
  split
  · rename_i hused
    obtain ⟨k, heq, hbefore, hfree⟩ := unusedFrom_length r.usedIds (numbered name index)
    rw [numbered] at heq
    rw [heq]
    exact .suffixed (List.contains_iff_mem.1 hused) hbefore hfree
  · rename_i hfree
    rw [List.contains_iff_mem] at hfree
    exact .own hfree

theorem usedIds_declareImports (r : Registry) (imports : List Import) :
    (r.declareImports imports).2.usedIds = r.usedIds := by
  induction imports generalizing r with
  | nil => rfl
  | cons i rest ih =>
    have hone : (r.declareImport i).2.usedIds = r.usedIds := by
      unfold declareImport
      split <;> rfl
    exact (ih (r.declareImport i).2).trans hone

/-- The identifiers that functions are given are those that are used from then on. -/
theorem usedIds_declareFields (r : Registry) (m : Module) (fields : List Field) :
    ∃ es, (r.declareFields m fields).2.functions.toList = r.functions.toList ++ es ∧
      es.length = (Module.functions { fields }).length ∧
      (r.declareFields m fields).2.usedIds = (es.map FunctionEntry.id).reverse ++ r.usedIds := by
  induction fields generalizing r with
  | nil => exact ⟨[], (List.append_nil _).symm, rfl, rfl⟩
  | cons field rest ih =>
    obtain ⟨es, hfunctions, hlength, hused⟩ := ih (r.declareField m field).2
    cases field with
    | function f =>
      obtain ⟨e, hpush, hid⟩ : ∃ e : FunctionEntry,
          (r.declareFunction m f).functions.toList = r.functions.toList ++ [e] ∧
            (r.declareFunction m f).usedIds = e.id :: r.usedIds := ⟨_, Array.toList_push, rfl⟩
      refine ⟨e :: es, hfunctions.trans ?_, congrArg (· + 1) hlength, hused.trans ?_⟩
      · rw [declareField, hpush, List.append_assoc, List.singleton_append]
      · rw [declareField, hid, List.map_cons, List.reverse_cons, List.append_assoc,
          List.singleton_append]
    | _ => exact ⟨es, hfunctions, hlength, hused⟩

theorem declareFields_append (r : Registry) (m : Module) (fields more : List Field) :
    (r.declareFields m (fields ++ more)).2 =
      ((r.declareFields m fields).2.declareFields m more).2 := by
  induction fields generalizing r with
  | nil => rfl
  | cons f rest ih => exact ih _

end Registry

open Registry

/-- The identifier of the function of an index. -/
def Module.idOf (m : Module) (p : Function × Nat) : String :=
  ((Registry.ofModule m).2.function? p.2).elim "" FunctionEntry.id

theorem idOf_of_entry {m : Module} {p : Function × Nat} {entry : FunctionEntry}
    (h : (Registry.ofModule m).2.function? p.2 = some entry) : m.idOf p = entry.id := by
  rw [Module.idOf, h]
  rfl

/-- The entries behind those of the imports are in the order of the functions. -/
theorem map_idOf {m : Module} {imports es tail : List FunctionEntry} {functions : List Function}
    (hall : (Registry.ofModule m).2.functions.toList = imports ++ es ++ tail)
    (himports : imports.length = m.importedFunctions) (hlength : es.length = functions.length) :
    (functions.zipIdx m.importedFunctions).map m.idOf = es.map FunctionEntry.id := by
  refine List.ext_getElem (by simp [hlength]) fun i hi _ => ?_
  rw [List.length_map, List.length_zipIdx] at hi
  rw [List.getElem_map, List.getElem_map, List.getElem_zipIdx]
  apply idOf_of_entry
  rw [function?, ← Array.getElem?_toList, hall, List.append_assoc,
    List.getElem?_append_right (by omega), himports, Nat.add_sub_cancel_left,
    List.getElem?_append_left (by omega)]
  exact List.getElem?_eq_getElem (by omega)

/-- The field of a function among the fields of a module. -/
theorem fields_of_functions {m : Module} {f : Function} {fs gs : List Function}
    (h : m.functions = fs ++ f :: gs) : ∃ front back, m.fields = front ++ .function f :: back ∧
      Module.functions { fields := front } = fs := by
  obtain ⟨front, rest, hfields, hfs, hrest⟩ := List.filterMap_eq_append_iff.1 h
  obtain ⟨skipped, field, back, rfl, hskipped, hfield, -⟩ := List.filterMap_eq_cons_iff.1 hrest
  cases field with
  | function g =>
    cases hfield
    refine ⟨front ++ skipped, back, by rw [hfields, List.append_assoc], ?_⟩
    rw [Module.functions, List.filterMap_append, hfs, List.filterMap_eq_nil_iff.2 hskipped,
      List.append_nil]
  | _ => cases hfield

/-- **The identifier of a function**: its own name if no function in front of it has that, and else
the first candidate with its index that none of them has. -/
theorem chosen_idOf {m : Module} {p : Function × Nat} {before after : List (Function × Nat)}
    (h : m.indexed = before ++ p :: after) :
    Chosen (before.map m.idOf) (m.functionName p.2 p.1) p.2 (m.idOf p) := by
  obtain ⟨fs, gs, hfunctions, rfl, hafter⟩ := List.zipIdx_eq_append_iff.1 h
  obtain ⟨f, gs, rfl, rfl, -⟩ := List.zipIdx_eq_cons_iff.1 hafter.symm
  obtain ⟨front, back, hfields, hfront⟩ := fields_of_functions hfunctions
  obtain ⟨imports, hi, hlen, -⟩ := extends_declareImports { types := m.types } m.imports
  have hnone := usedIds_declareImports { types := m.types } m.imports
  generalize hr : (declareImports { types := m.types } m.imports).2 = r at hi hnone
  -- the registry in front of the function, and the entries behind it
  obtain ⟨es, hes, heslength, hused⟩ := usedIds_declareFields r m front
  rw [hfront] at heslength
  generalize hr' : (r.declareFields m front).2 = r' at hes hused
  obtain ⟨tail, htail, -, -⟩ := usedIds_declareFields (r'.declareFunction m f) m back
  have himports : imports.length = m.importedFunctions := hlen
  have hsize : r'.functions.size = m.importedFunctions + fs.length := by
    rw [← Array.length_toList, hes, hi.functions, List.length_append, List.length_append, himports,
      heslength]
    exact congrArg (· + _) (Nat.zero_add _)
  obtain ⟨e, hpush, hid⟩ : ∃ e : FunctionEntry,
      (r'.declareFunction m f).functions.toList = r'.functions.toList ++ [e] ∧
        e.id = (r'.uniqueId (m.functionName r'.functions.size f) r'.functions.size).1 :=
    ⟨_, Array.toList_push, rfl⟩
  have hall : (Registry.ofModule m).2.functions.toList = imports ++ es ++ e :: tail := by
    have hloop : (Registry.ofModule m).2 =
        ((r'.declareFunction m f).declareFields m back).2 := by
      change ((declareImports { types := m.types } m.imports).2.declareFields m m.fields).2 = _
      rw [hr, hfields, declareFields_append, hr']
      rfl
    rw [hloop, htail, hpush, hes, hi.functions]
    simp
  have hown : m.idOf (f, m.importedFunctions + fs.length) = e.id := by
    apply idOf_of_entry
    rw [function?, ← Array.getElem?_toList, hall,
      List.getElem?_append_right (by simp [himports, heslength])]
    simp [himports, heslength]
  rw [hown, hid, map_idOf hall himports heslength, ← hsize]
  refine (chosen_uniqueId r' _ _).congr fun s => ?_
  rw [hused, hnone]
  simp

/-- **No two functions have the same identifier.** -/
theorem nodup_idOf (m : Module) : (m.indexed.map m.idOf).Nodup := by
  have hinit : ∀ l, l <+: m.indexed → (l.map m.idOf).Nodup := by
    intro l
    induction l using List.reverseRecOn with
    | nil => exact fun _ => List.nodup_nil
    | append_singleton l p ih =>
      rintro ⟨after, hafter⟩
      rw [List.append_assoc, List.singleton_append] at hafter
      have hnew := (chosen_idOf hafter.symm).not_mem
      rw [List.map_append, List.map_singleton, List.nodup_append]
      refine ⟨ih ⟨_, hafter⟩, List.nodup_singleton _, fun s hs t ht heq => hnew ?_⟩
      rwa [← List.mem_singleton.1 ht, ← heq]
  exact hinit m.indexed (List.prefix_refl _)

/-- A function in front of that of an index has the identifier. -/
def Module.GivenBefore (m : Module) (p : Function × Nat) (id : String) : Prop :=
  ∃ q ∈ m.indexed, q.2 < p.2 ∧ m.idOf q = id

theorem pairwise_indexed (m : Module) : m.indexed.Pairwise fun p q => p.2 < q.2 := by
  have hrange : (m.indexed.map Prod.snd).Pairwise (· < ·) := by
    rw [Module.indexed, List.zipIdx_map_snd]
    exact List.pairwise_lt_range'
  rwa [List.pairwise_map] at hrange

/-- Where a function stands among the others, the identifier it is given depends on those in front of
it only. -/
theorem exists_chosen_idOf {m : Module} {p : Function × Nat} (hp : p ∈ m.indexed) : ∃ used,
    Chosen used (m.functionName p.2 p.1) p.2 (m.idOf p) ∧ ∀ id, id ∈ used ↔ m.GivenBefore p id := by
  obtain ⟨before, after, h⟩ := List.append_of_mem hp
  refine ⟨before.map m.idOf, chosen_idOf h, fun id => ?_⟩
  have hsorted := pairwise_indexed m
  rw [h, List.pairwise_append, List.pairwise_cons] at hsorted
  obtain ⟨-, ⟨hafter, -⟩, hbefore⟩ := hsorted
  rw [List.mem_map]
  constructor
  · rintro ⟨q, hq, hid⟩
    refine ⟨q, ?_, hbefore q hq p List.mem_cons_self, hid⟩
    rw [h]
    exact List.mem_append_left _ hq
  · rintro ⟨q, hq, hlt, hid⟩
    rw [h, List.mem_append, List.mem_cons] at hq
    obtain hq | rfl | hq := hq
    · exact ⟨q, hq, hid⟩
    · omega
    · have hgt := hafter q hq
      omega

end Moonstack
