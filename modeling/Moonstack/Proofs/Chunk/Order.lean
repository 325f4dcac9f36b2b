import Mathlib.Data.List.Basic
import Moonstack.Chunk.Assembly

/-!
# The order of fields

The fields of a module fall into sections. What becomes of a module depends on the order of the
fields inside each section, and not on how the sections are interleaved: imports may stand behind
definitions, and exports in front of what they point to (`program_of_reordered`).

Every part of the chunk goes over the fields of one section. The two exceptions are the declarations,
one loop over all fields (`Registry.declareFields_congr`), and the names of functions, which look for
an export.
-/

namespace Moonstack

/-- The part of a module that a field belongs to. -/
inductive Section where
  | imports | functions | globals | exports | start | elements | data
  | shapes
deriving DecidableEq

def Field.sectionOf : Field → Section
  | imported _ => .imports
  | function _ => .functions
  | global _ => .globals
  | exported _ => .exports
  | start _ => .start
  | element _ => .elements
  | data _ => .data
  | table _ | memory _ | unsupported _ => .shapes

def Module.inSection (m : Module) (s : Section) : List Field :=
  m.fields.filter fun f => f.sectionOf = s

/-- The modules differ in the order of their fields only, and not in the order inside a section. -/
structure Module.Reordered (m m' : Module) : Prop where
  name : m.name = m'.name
  types : m.types = m'.types
  sections : ∀ s, m.inSection s = m'.inSection s

namespace Registry

variable (r : Registry) (m : Module)

/-- Fields of different sections can be declared in either order: only shapes make items, and only
functions are given names. -/
theorem declareFields_swap {f g : Field} (h : f.sectionOf ≠ g.sectionOf) (rest : List Field) :
    r.declareFields m (f :: g :: rest) = r.declareFields m (g :: f :: rest) := by
  cases f <;> cases g <;> first | exact absurd rfl h | rfl

/-- A field can be declared in front of fields of other sections. -/
theorem declareFields_past {f : Field} {front : List Field}
    (h : ∀ g ∈ front, g.sectionOf ≠ f.sectionOf) (rest : List Field) :
    r.declareFields m (front ++ f :: rest) = r.declareFields m (f :: (front ++ rest)) := by
  induction front generalizing r with
  | nil => rfl
  | cons g front ih =>
    obtain ⟨hg, hfront⟩ := List.forall_mem_cons.1 h
    rw [List.cons_append, List.cons_append, ← declareFields_swap r m hg]
    simp only [declareFields, ih _ hfront]

/-- **The order of sections does not matter to the loop over the fields**, in which functions and
shapes are declared as they come. -/
theorem declareFields_congr {fields fields' : List Field} (h : ∀ s,
    (fields.filter fun f => f.sectionOf = s) = fields'.filter fun f => f.sectionOf = s) :
    r.declareFields m fields = r.declareFields m fields' := by
  induction fields generalizing r fields' with
  | nil =>
    cases fields' with
    | nil => rfl
    | cons f rest => simpa using h f.sectionOf
  | cons f rest ih =>
    -- the first field of its section is the first one there in the other order too
    have hf := (h f.sectionOf).symm
    rw [List.filter_cons_of_pos (by simp)] at hf
    obtain ⟨front, back, rfl, hfront, -, hback⟩ := List.filter_eq_cons_iff.1 hf
    have hne : ∀ g ∈ front, g.sectionOf ≠ f.sectionOf := by simpa using hfront
    have hrest : ∀ s, (rest.filter fun f => f.sectionOf = s) =
        (front ++ back).filter fun f => f.sectionOf = s := by
      intro s
      by_cases hs : f.sectionOf = s
      · subst hs
        rw [List.filter_append, hback, List.filter_eq_nil_iff.2 hfront, List.nil_append]
      · have hs' := h s
        rwa [List.filter_append, List.filter_cons_of_neg (by simpa using hs),
          List.filter_cons_of_neg (by simpa using hs), ← List.filter_append] at hs'
    rw [declareFields_past r m hne]
    simp only [declareFields, ih _ hrest]

/-- The loop does what two passes do, one over the functions and one over all else. -/
theorem declareFields_passes (fields : List Field) :
    r.declareFields m fields = r.declareFields m (fields.filter (fun f => f.sectionOf = .functions) ++
      fields.filter fun f => f.sectionOf ≠ .functions) := by
  refine declareFields_congr r m fun s => ?_
  rw [List.filter_append, List.filter_filter, List.filter_filter]
  by_cases hs : s = .functions
  · subst hs
    simp
  · have hnone : fields.filter (fun f => decide (f.sectionOf = s) &&
        decide (f.sectionOf = .functions)) = [] := by
      refine List.filter_eq_nil_iff.2 fun f _ => ?_
      simp only [Bool.and_eq_true, decide_eq_true_eq, not_and]
      exact fun hf => hf ▸ hs
    rw [hnone, List.nil_append]
    refine List.filter_congr fun f _ => ?_
    by_cases hf : f.sectionOf = s <;> simp [hf, hs]

end Registry

namespace Module.Reordered

variable {m m' : Module} (h : m.Reordered m')
include h

/-- What is collected from one section is the same. -/
theorem filterMap_eq {α : Type} (g : Field → Option α) (s : Section)
    (hg : ∀ f : Field, f.sectionOf ≠ s → g f = none) :
    m.fields.filterMap g = m'.fields.filterMap g := by
  have hall (k : Module) : k.fields.filterMap g = (k.inSection s).filterMap g := by
    rw [inSection, List.filterMap_filter]
    congr 1
    funext f
    by_cases hf : f.sectionOf = s
    · simp [hf]
    · simp [hf, hg f hf]
  rw [hall m, hall m', h.sections s]

theorem imports_eq : m.imports = m'.imports :=
  h.filterMap_eq _ .imports fun f hf => by cases f <;> simp [Field.sectionOf] at hf ⊢

theorem functions_eq : m.functions = m'.functions :=
  h.filterMap_eq _ .functions fun f hf => by cases f <;> simp [Field.sectionOf] at hf ⊢

theorem globals_eq : m.globals = m'.globals :=
  h.filterMap_eq _ .globals fun f hf => by cases f <;> simp [Field.sectionOf] at hf ⊢

theorem exports_eq : m.exports = m'.exports :=
  h.filterMap_eq _ .exports fun f hf => by cases f <;> simp [Field.sectionOf] at hf ⊢

theorem elements_eq : m.elements = m'.elements :=
  h.filterMap_eq _ .elements fun f hf => by cases f <;> simp [Field.sectionOf] at hf ⊢

theorem dataSegments_eq : m.dataSegments = m'.dataSegments :=
  h.filterMap_eq _ .data fun f hf => by cases f <;> simp [Field.sectionOf] at hf ⊢

theorem start_eq : m.start? = m'.start? := by
  unfold start?
  rw [← List.head?_filterMap, ← List.head?_filterMap, h.filterMap_eq _ .start]
  intro f hf
  cases f <;> simp [Field.sectionOf] at hf ⊢

theorem functionName_eq : m.functionName = m'.functionName := by
  funext index f
  simp only [functionName, exportName?, h.exports_eq]

theorem declareFields_eq (r : Registry) (fields : List Field) :
    r.declareFields m fields = r.declareFields m' fields := by
  have hone (r : Registry) (f : Field) : r.declareField m f = r.declareField m' f := by
    cases f <;> simp only [Registry.declareField, Registry.declareFunction, h.functionName_eq]
  induction fields generalizing r with
  | nil => rfl
  | cons f rest ih => simp only [Registry.declareFields, hone, ih]

/-- The declarations come to the same items and the same registry. -/
theorem ofModule_eq : Registry.ofModule m = Registry.ofModule m' := by
  simp only [Registry.ofModule, h.types, h.imports_eq, h.declareFields_eq,
    Registry.declareFields_congr _ m' h.sections]

theorem isPruned_eq : isPruned m = isPruned m' := by
  funext whitelist index entry
  simp only [isPruned, h.exports_eq]

theorem functionsItems_eq (env : Env) (index : Nat) (tally : Tally) (functions : List Function) :
    functionsItems env m index tally functions = functionsItems env m' index tally functions := by
  induction functions generalizing index tally with
  | nil => rfl
  | cons f rest ih => simp only [functionsItems, functionItems, h.isPruned_eq, ih]

theorem moduleFunctions_eq (env : Env) : moduleFunctions env m = moduleFunctions env m' := by
  simp only [moduleFunctions, h.functionsItems_eq, h.functions_eq]

theorem moduleInitial_eq (env : Env) : moduleInitial env m = moduleInitial env m' := by
  simp only [moduleInitial, importedGlobals, h.imports_eq, h.globals_eq, h.elements_eq,
    h.dataSegments_eq]

theorem moduleExports_eq (env : Env) : moduleExports env m = moduleExports env m' := by
  have hitem : whitelistItem env.registry m = whitelistItem env.registry m' := by
    funext name
    simp only [whitelistItem, Registry.whitelisted?, h.exports_eq]
  simp only [moduleExports, hitem, h.exports_eq, h.start_eq]

end Module.Reordered

/-- **The order of sections does not matter.** Modules that differ in the order of their fields, and
not in the order inside a section, become the same text, or fail with the same chain of messages,
and what is logged on the way is the same. -/
theorem program_of_reordered {m m' : Module} (h : m.Reordered m') (options : Options) :
    programOfModule options m = programOfModule options m' := by
  have hitems : moduleItems options m = moduleItems options m' := by
    simp only [moduleItems, h.ofModule_eq, h.moduleFunctions_eq, h.moduleInitial_eq,
      h.moduleExports_eq]
  simp only [programOfModule, lowerModule, hitems, h.name]

/-- A module that imports behind its definitions and exports in front of them. -/
theorem program_of_reordered_exportsFirst :
    let import₁ : Field := .imported ⟨"env", "log", .function 0⟩
    let export₁ : Field := .exported ⟨"main", .function, 1⟩
    let global₁ : Field := .global ⟨.i32, true, [.leaf 0 (.const (.i32 7))]⟩
    let memory₁ : Field := .memory ⟨1, none⟩
    let function₁ : Field := .function ⟨none, 0, [], [.leaf 1 (.call 0)]⟩
    let m : Module := ⟨none, [⟨[], []⟩], [export₁, function₁, global₁, memory₁, import₁]⟩
    let m' : Module := ⟨none, [⟨[], []⟩], [import₁, function₁, memory₁, global₁, export₁]⟩
    m.Reordered m' ∧ programOfModule {} m = programOfModule {} m' := by
  intro import₁ export₁ global₁ memory₁ function₁ m m'
  have h : m.Reordered m' := ⟨rfl, rfl, fun s => by cases s <;> rfl⟩
  exact ⟨h, program_of_reordered h {}⟩

end Moonstack
