import Mathlib.Data.List.Forall2
import Moonstack.Chunk.Definitions

/-!
# Index spaces

What `Registry.ofModule` knows of a module, in terms of the module alone: how many tables and
memories there are, how many functions are imported, and which name the function of an index has.
Imports stand in front of definitions in every index space.
-/

namespace Moonstack

def Import.isFunction (i : Import) : Bool :=
  match i.kind with
  | .function _ => true
  | _ => false

def Import.isTable (i : Import) : Bool :=
  match i.kind with
  | .table _ => true
  | _ => false

def Import.isMemory (i : Import) : Bool :=
  match i.kind with
  | .memory _ => true
  | _ => false

def Field.isTable : Field → Bool
  | table _ => true
  | _ => false

def Field.isMemory : Field → Bool
  | memory _ => true
  | _ => false

namespace Module

def importedFunctions (m : Module) : Nat := m.imports.countP Import.isFunction

def tableCount (m : Module) : Nat := m.imports.countP Import.isTable + m.fields.countP Field.isTable

/-- The number of memories. -/
def memoryCount (m : Module) : Nat :=
  m.imports.countP Import.isMemory + m.fields.countP Field.isMemory

/-- The functions that the module defines, with their indices. -/
def indexed (m : Module) : List (Function × Nat) := m.functions.zipIdx m.importedFunctions

end Module

/-- Does the entry stand for an imported function, which is read from the table of modules? -/
def FunctionEntry.IsForeign (e : FunctionEntry) : Prop :=
  e.imported = true ∧ ∃ i : Import, e.id = i.place.text

namespace Registry

/-- `r'` is `r` with more functions, tables and memories. -/
structure Extends (r r' : Registry) (entries : List FunctionEntry) (tables memories : Nat) :
    Prop where
  types : r'.types = r.types
  functions : r'.functions.toList = r.functions.toList ++ entries
  tables : r'.tableCount = r.tableCount + tables
  memories : r'.memoryCount = r.memoryCount + memories

namespace Extends

variable {r r' r'' : Registry} {es es' : List FunctionEntry} {t t' n n' : Nat}

theorem refl (r : Registry) : Extends r r [] 0 0 := ⟨rfl, (List.append_nil _).symm, rfl, rfl⟩

theorem trans (h : Extends r r' es t n) (h' : Extends r' r'' es' t' n') :
    Extends r r'' (es ++ es') (t + t') (n + n') where
  types := h'.types.trans h.types
  functions := by rw [h'.functions, h.functions, List.append_assoc]
  tables := by rw [h'.tables, h.tables, Nat.add_assoc]
  memories := by rw [h'.memories, h.memories, Nat.add_assoc]

end Extends

/-- One step of a count. -/
theorem countP_cons' {α : Type} (p : α → Bool) (a : α) (l : List α) :
    (a :: l).countP p = [a].countP p + l.countP p :=
  @List.countP_append _ p [a] l

theorem extends_declareImport (r : Registry) (i : Import) : ∃ es,
    Extends r (r.declareImport i).2 es ([i].countP Import.isTable) ([i].countP Import.isMemory) ∧
      es.length = [i].countP Import.isFunction ∧ ∀ e ∈ es, e.IsForeign := by
  obtain ⟨source, name, kind⟩ := i
  cases kind with
  | function type =>
    refine ⟨[_], ⟨rfl, Array.toList_push, rfl, rfl⟩, rfl, fun e he => ?_⟩
    rw [List.mem_singleton.1 he]
    exact ⟨rfl, _, rfl⟩
  | table | memory | global => exact ⟨[], ⟨rfl, (List.append_nil _).symm, rfl, rfl⟩, rfl, nofun⟩

theorem extends_declareImports (r : Registry) (imports : List Import) : ∃ es,
    Extends r (r.declareImports imports).2 es (imports.countP Import.isTable)
      (imports.countP Import.isMemory) ∧
      es.length = imports.countP Import.isFunction ∧ ∀ e ∈ es, e.IsForeign := by
  induction imports generalizing r with
  | nil => exact ⟨[], .refl r, rfl, nofun⟩
  | cons i rest ih =>
    obtain ⟨es, he, hlen, himp⟩ := extends_declareImport r i
    obtain ⟨es', he', hlen', himp'⟩ := ih (r.declareImport i).2
    refine ⟨es ++ es', ?_, ?_, fun e hm => ?_⟩
    · rw [countP_cons' Import.isTable, countP_cons' Import.isMemory]
      exact he.trans he'
    · rw [List.length_append, hlen, hlen', countP_cons' _ i rest]
    · rcases List.mem_append.1 hm with hm | hm
      · exact himp e hm
      · exact himp' e hm

/-- The entry has the name of the function and its type. -/
structure Names (m : Module) (p : Function × Nat) (entry : FunctionEntry) : Prop where
  name : entry.name = m.functionName p.2 p.1
  signature : entry.signature = m.types[p.1.type]?

section

variable {r : Registry} {m : Module} (ht : r.types = m.types)
include ht

theorem extends_declareField (f : Field) : ∃ es,
    Extends r (r.declareField m f).2 es ([f].countP Field.isTable) ([f].countP Field.isMemory) ∧
      List.Forall₂ (Names m) ((Module.functions { fields := [f] }).zipIdx r.functions.size) es ∧
      ∀ e ∈ es, e.imported = false := by
  cases f with
  | function f =>
    exact ⟨[_], ⟨rfl, Array.toList_push, rfl, rfl⟩, .cons ⟨rfl, congrArg (·[f.type]?) ht⟩ .nil,
      List.forall_mem_singleton.2 rfl⟩
  | _ => exact ⟨[], ⟨rfl, (List.append_nil _).symm, rfl, rfl⟩, .nil, nofun⟩

theorem extends_declareFields (fields : List Field) : ∃ es,
    Extends r (r.declareFields m fields).2 es (fields.countP Field.isTable)
      (fields.countP Field.isMemory) ∧
      List.Forall₂ (Names m) ((Module.functions { fields }).zipIdx r.functions.size) es ∧
      ∀ e ∈ es, e.imported = false := by
  induction fields generalizing r with
  | nil => exact ⟨[], .refl r, .nil, nofun⟩
  | cons f rest ih =>
    obtain ⟨es, he, hnames, himp⟩ := extends_declareField ht f
    obtain ⟨es', he', hnames', himp'⟩ := ih (he.types.trans ht)
    refine ⟨es ++ es', ?_, ?_, List.forall_mem_append.2 ⟨himp, himp'⟩⟩
    · rw [countP_cons' Field.isTable, countP_cons' Field.isMemory]
      exact he.trans he'
    · have hsize : (r.declareField m f).2.functions.size =
          r.functions.size + (Module.functions { fields := [f] }).length := by
        rw [← Array.length_toList, he.functions, List.length_append, Array.length_toList,
          ← hnames.length_eq, List.length_zipIdx]
      have hfunctions : Module.functions { fields := f :: rest } =
          Module.functions { fields := [f] } ++ Module.functions { fields := rest } :=
        @List.filterMap_append _ _ [f] rest _
      rw [hfunctions, List.zipIdx_append, ← hsize]
      exact List.rel_append hnames hnames'

end

/-- What belongs to an item with an index stands at that place. -/
theorem get_of_indexed {α β : Type} {R : α × Nat → β → Prop} {as : List α} {n : Nat} {bs : List β}
    (h : List.Forall₂ R (as.zipIdx n) bs) {p : α × Nat} (hp : p ∈ as.zipIdx n) :
    ∃ b, bs[p.2 - n]? = some b ∧ n ≤ p.2 ∧ R p b := by
  induction as generalizing n bs with
  | nil => cases hp
  | cons a rest ih =>
    rw [List.zipIdx_cons] at h hp
    cases h with
    | cons hab hrest =>
      rcases List.mem_cons.1 hp with rfl | hp
      · exact ⟨_, by simp, Nat.le_refl _, hab⟩
      · obtain ⟨b, hb, hle, hr⟩ := ih hrest hp
        refine ⟨b, ?_, by omega, hr⟩
        rw [show p.2 - n = p.2 - (n + 1) + 1 by omega, List.getElem?_cons_succ]
        exact hb

/-- What the registry of a module holds. -/
structure Describes (r : Registry) (m : Module) : Prop where
  types : r.types = m.types
  tables : r.tableCount = m.tableCount
  memories : r.memoryCount = m.memoryCount
  imported : r.importedCount = m.importedFunctions
  defined : ∀ p ∈ m.indexed, ∃ entry, r.function? p.2 = some entry ∧ Names m p entry
  entries : ∀ {index entry}, r.function? index = some entry →
    entry.IsForeign ∨ ∃ f, (f, index) ∈ m.indexed

/-- **The declarations describe the module.** -/
theorem describes_ofModule (m : Module) : (ofModule m).2.Describes m := by
  obtain ⟨imports, hi, hlen, himp⟩ := extends_declareImports { types := m.types } m.imports
  obtain ⟨entries, hd, hnames, hown⟩ := extends_declareFields (m := m) hi.types m.fields
  have h := hi.trans hd
  have hfunctions : (ofModule m).2.functions.toList = imports ++ entries := h.functions
  have hsize : (declareImports { types := m.types } m.imports).2.functions.size =
      m.importedFunctions := by
    rw [← Array.length_toList, hi.functions]
    exact hlen
  have hlen' : imports.length = m.importedFunctions := hlen
  rw [hsize] at hnames
  change List.Forall₂ (Names m) m.indexed entries at hnames
  refine ⟨h.types, ?_, ?_, ?_, fun p hp => ?_, fun {index entry} he => ?_⟩
  · exact h.tables.trans (Nat.zero_add _)
  · exact h.memories.trans (Nat.zero_add _)
  · have hnone : entries.countP FunctionEntry.imported = 0 :=
      List.countP_eq_zero.2 fun e he => by rw [hown e he]; exact Bool.false_ne_true
    rw [importedCount, hfunctions, List.countP_append, hnone,
      List.countP_eq_length.2 fun e he => (himp e he).1]
    exact hlen
  · obtain ⟨e, he, hle, hname⟩ := get_of_indexed hnames hp
    refine ⟨e, ?_, hname⟩
    rw [function?, ← Array.getElem?_toList, hfunctions, List.getElem?_append_right (by omega), hlen']
    exact he
  · rw [function?, ← Array.getElem?_toList, hfunctions, List.getElem?_append] at he
    split at he
    · exact .inl (himp entry (List.mem_of_getElem? he))
    · have hcount := hnames.length_eq
      rw [Module.indexed, List.length_zipIdx] at hcount
      have hlt : index - m.importedFunctions < m.functions.length := by
        rw [hcount, ← hlen']
        exact (List.getElem?_eq_some_iff.1 he).1
      exact .inr ⟨_, List.mk_mem_zipIdx_iff_le_and_getElem?_sub.2
        ⟨by omega, List.getElem?_eq_getElem hlt⟩⟩

end Registry

end Moonstack
