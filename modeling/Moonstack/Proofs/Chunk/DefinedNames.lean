import Moonstack.Proofs.Chunk.Identifiers
import Moonstack.Proofs.Chunk.Items

/-!
# Names of definitions

The names under which a chunk defines functions: the identifier of every function that the module
defines, and in front of it, for a function with a place to resume at, the name of its body.

Identifiers differ from one another (`nodup_idOf`), and so do the names of bodies. A name of a body
is not among the names that identifiers are kept apart from, however, so it can be the identifier of
another function; that is the only way for a chunk to define a name twice (`nodup_definedNames_iff`).
-/

namespace Moonstack

/-- The name under which an item defines a function. -/
def Item.definedName? : Item → Option String
  | define d => some d.name
  | _ => none

theorem Item.definedName_of_isPlain (item : Item) (h : item.isPlain = true) :
    item.definedName? = none := by
  cases item with
  | define => cases h
  | _ => rfl

/-- The names under which a chunk defines functions, in order. -/
def Chunk.definedNames (c : Chunk) : List String := c.items.filterMap Item.definedName?

namespace Module

/-- Is the function of an index written with a place to resume at? -/
def resumes (m : Module) (options : Options) (p : Function × Nat) : Bool :=
  !m.prunes options p &&
    match (lowerFunction (m.env options) (m.idOf p) (m.functionName p.2 p.1) p.1).outcome.1 with
    | .ok lowered => lowered.usesSetjmp
    | .error _ => false

/-- The names under which the function of an index is defined, in order. -/
def definedNames (m : Module) (options : Options) (p : Function × Nat) : List String :=
  if m.resumes options p then [resumableName (m.idOf p), m.idOf p] else [m.idOf p]

end Module

section

variable {options : Options} {m : Module} {p : Function × Nat}

/-- The names that a function defines are known from the module. -/
theorem definedNames_of_defines {items : List Item} (hp : p ∈ m.indexed)
    (h : (m.env options).Defines m p items) :
    items.filterMap Item.definedName? = m.definedNames options p := by
  obtain ⟨entry, hentry, hname, -⟩ := (Registry.describes_ofModule m).defined p hp
  have hid : m.idOf p = entry.id := idOf_of_entry hentry
  have hentry' : (m.env options).registry.function? p.2 = some entry := hentry
  have hpruned : isPruned m (m.env options).options.whitelist p.2 entry = m.prunes options p :=
    isPruned_eq hname
  unfold Module.definedNames Module.resumes
  rw [hid, ← hname]
  cases h with
  | pruned hentry₁ hp =>
    cases hentry'.symm.trans hentry₁
    rw [← hpruned, hp]
    rfl
  | rejected hentry₁ hp he hr =>
    cases hentry'.symm.trans hentry₁
    rw [← hpruned, hp, he]
    rfl
  | @written _ lowered hentry₁ hp hl =>
    cases hentry'.symm.trans hentry₁
    rw [← hpruned, hp, hl]
    unfold FunctionEntry.definitions
    cases h : lowered.usesSetjmp <;> simp [h, Item.definedName?]

theorem definedNames_lowerModule {chunk : Chunk}
    (h : (lowerModule options m).outcome.1 = .ok chunk) :
    chunk.definedNames = m.indexed.flatMap (m.definedNames options) := by
  rw [Chunk.definedNames, filterMap_items Item.definedName_of_isPlain h fun p hp _ hd =>
    definedNames_of_defines hp hd]
  simp [Item.definedName?]

end

theorem resumableName_injective : Function.Injective resumableName := by
  intro s t h
  have hlist := congrArg String.toList h
  simp only [resumableName, String.toList_append] at hlist
  exact String.toList_injective (List.append_cancel_right hlist)

theorem resumableName_ne (id : String) : resumableName id ≠ id := by
  intro h
  have hlength := congrArg (fun s => s.toList.length) h
  simp [resumableName] at hlength

section

variable {options : Options} {m : Module}

theorem mem_definedNames {p : Function × Nat} {name : String} :
    name ∈ m.definedNames options p ↔ name = m.idOf p ∨
      m.resumes options p = true ∧ name = resumableName (m.idOf p) := by
  unfold Module.definedNames
  split
  · rename_i h
    simp [h, or_comm]
  · rename_i h
    simp [h]

/-- **When a chunk defines a name twice.** The definitions of a chunk have the identifiers of the
functions of the module as names, and in front of each the name of its body if it has a place to
resume at. The identifiers differ, and all names differ unless the name of a body is the identifier
of another function. -/
theorem nodup_definedNames_iff {chunk : Chunk} (h : (lowerModule options m).outcome.1 = .ok chunk) :
    chunk.definedNames = m.indexed.flatMap (m.definedNames options) ∧
      (m.indexed.map m.idOf).Nodup ∧
      (chunk.definedNames.Nodup ↔ ∀ p ∈ m.indexed, m.resumes options p = true →
        ∀ q ∈ m.indexed, m.idOf q ≠ resumableName (m.idOf p)) := by
  have hnames := definedNames_lowerModule h
  have hids := nodup_idOf m
  refine ⟨hnames, hids, ?_⟩
  rw [hnames, List.nodup_flatMap]
  constructor
  · rintro ⟨-, hapart⟩ p hp hresumes q hq heq
    obtain rfl | hne := eq_or_ne p q
    · exact resumableName_ne _ heq.symm
    · have hsymm : Std.Symm (Function.onFun List.Disjoint (m.definedNames options)) :=
        ⟨fun _ _ h _ hname hname' => h hname' hname⟩
      have hdisjoint := hapart.forall hp hq hne
      exact hdisjoint (mem_definedNames.2 (.inr ⟨hresumes, heq⟩)) (mem_definedNames.2 (.inl rfl))
  · intro hclash
    constructor
    · intro p _
      unfold Module.definedNames
      split
      · simp [resumableName_ne]
      · exact List.nodup_singleton _
    · refine hids.of_map.pairwise_of_forall_ne fun p hp q hq hne => ?_
      have hid : m.idOf p ≠ m.idOf q := fun heq => hne (List.inj_on_of_nodup_map hids hp hq heq)
      intro name hnamep hnameq
      obtain rfl | ⟨hrp, rfl⟩ := mem_definedNames.1 hnamep
      · obtain heq | ⟨hrq, heq⟩ := mem_definedNames.1 hnameq
        · exact hid heq
        · exact hclash q hq hrq p hp heq
      · obtain heq | ⟨-, heq⟩ := mem_definedNames.1 hnameq
        · exact hclash p hp hrp q hq heq.symm
        · exact hid (resumableName_injective heq)

end

/-- A function with a place to resume at, and one whose name is that of its body. -/
def resumedTwice : Module where
  types := [⟨[.i32], [.i32]⟩]
  fields := [
    .imported ⟨"env", "setjmp", .function 0⟩,
    .memory ⟨1, none⟩,
    .function ⟨some "f", 0, [], [.leaf 0 (.localGet 0), .leaf 1 (.call 0)]⟩,
    .function ⟨some "f__setjmp_internal", 0, [], [.leaf 0 (.localGet 0)]⟩]

theorem definedNames_resumedTwice : ∃ chunk, (lowerModule {} resumedTwice).outcome.1 = .ok chunk ∧
    chunk.definedNames = ["f__setjmp_internal", "f", "f__setjmp_internal"] ∧
    ¬ chunk.definedNames.Nodup := by
  obtain ⟨chunk, hchunk⟩ : ∃ chunk, (lowerModule {} resumedTwice).outcome.1 = .ok chunk := by
    have hok : (lowerModule {} resumedTwice).outcome.1.isOk = true := by decide +kernel
    cases h : (lowerModule {} resumedTwice).outcome.1 with
    | ok chunk => exact ⟨chunk, rfl⟩
    | error e =>
      rw [h] at hok
      cases hok
  obtain ⟨hnames, -, -⟩ := nodup_definedNames_iff hchunk
  have hlist : resumedTwice.indexed.flatMap (resumedTwice.definedNames {}) =
      ["f__setjmp_internal", "f", "f__setjmp_internal"] := by decide +kernel
  rw [hlist] at hnames
  refine ⟨chunk, hchunk, hnames, ?_⟩
  rw [hnames]
  decide

end Moonstack
