import Moonstack.Proofs.Chunk.PreludeNames

/-!
# Functions with names of generated locals

A function is a global, so one whose identifier is the local of a memory, of a table or of a register
takes the place of that local, and one that is called like a keyword cannot be written at all.
Sanitizing keeps away from all these names. The index that is added to the name of a second function
comes later, and then nothing looks at the result: `clashes_idOf_iff` says that the only function
that clashes is one called `mem` that is not the first, if there is a memory of its index.
-/

namespace Moonstack

/-- The name is that of a memory, of a local of a table, of a register, of a keyword or of a reserved
global. -/
inductive Registry.Clashes (r : Registry) : String → Prop
  | memory {index : Nat} {handle : String} : r.memory? index = some handle → Clashes r handle
  | functions {index : Nat} {handle : TableHandle} : r.table? index = some handle →
    Clashes r handle.functions
  | offset {index : Nat} {handle : TableHandle} : r.table? index = some handle →
    Clashes r handle.offset
  | register (slot : Nat) : Clashes r (slotName slot)
  | keyword {s : String} : s ∈ Identifier.keywords → Clashes r s
  | reserved {s : String} : s ∈ Identifier.reserved → Clashes r s

namespace Identifier

theorem isTaken_of_isGenerated {cs : List Char} (h : isGenerated cs = true) : isTaken cs = true := by
  simp only [isTaken, h, Bool.or_true]

theorem isNumbered_append (stem : String) (n : Nat) :
    isNumbered stem.toList (stem ++ toString n).toList = true := by
  have hdigits : ∀ c ∈ Nat.toDigits 10 n, c.isDigit = true := fun c hc =>
    Nat.isDigit_of_mem_toDigits (by decide) (by decide) hc
  simpa [isNumbered, Nat.toDigits_ne_nil] using hdigits

theorem isFaithful_mem : isFaithful "mem" = true := by decide +kernel

theorem sanitize_mem : sanitize "mem" = "mem" := (sanitize_eq_iff isFaithful_mem).2 rfl

end Identifier

namespace Registry

open Identifier (isTaken_of_isGenerated isNumbered_append sanitize)

variable {r : Registry} {s : String}

/-- A local of a table is a stem with a number and two underscores. -/
theorem table?_eq {index : Nat} {handle : TableHandle} (h : r.table? index = some handle) :
    handle.functions = underscored ("__TABLE_FUNCS" ++ "_" ++ toString index) 2 ∧
      handle.offset = underscored ("__TABLE_OFFSET" ++ "_" ++ toString index) 2 := by
  obtain ⟨-, rfl⟩ : index < r.tableCount ∧ tableHandle index = handle := by simpa [table?] using h
  have hfunctions : (tableHandle index).functions = "__TABLE_FUNCS_" ++ toString index ++ "__" := rfl
  have hoffset : (tableHandle index).offset = "__TABLE_OFFSET_" ++ toString index ++ "__" := rfl
  rw [hfunctions, hoffset]
  constructor <;> exact String.toList_injective (by simp [underscored])

theorem isTaken_table (text : String) (h : "__TABLE_".toList <+: text.toList) (index k : Nat) :
    Identifier.isTaken (underscored (text ++ "_" ++ toString index) k).toList = true := by
  refine isTaken_of_isGenerated ?_
  have hfront : "__TABLE_".toList <+: (underscored (text ++ "_" ++ toString index) k).toList := by
    simp only [underscored, String.toList_append, List.append_assoc]
    exact h.trans (List.prefix_append _ _)
  simp only [Identifier.isGenerated, List.isPrefixOf_iff_prefix.2 hfront, Bool.true_or]

theorem memory?_eq {index : Nat} (h : r.memory? index = some s) :
    index < r.memoryCount ∧ s = numbered "mem" index := by
  obtain ⟨hlt, rfl⟩ : index < r.memoryCount ∧ memoryHandle index = s := by simpa [memory?] using h
  have hhandle : memoryHandle index = "mem_" ++ toString index := rfl
  have hnumbered : numbered "mem" index = sanitize "mem" ++ "_" ++ toString index := rfl
  refine ⟨hlt, ?_⟩
  rw [hhandle, hnumbered, Identifier.sanitize_mem]
  exact String.toList_injective (by simp)

/-- All these names have a meaning of their own. -/
theorem Clashes.isTaken (h : r.Clashes s) : Identifier.isTaken s.toList = true := by
  cases h with
  | @memory index _ hm =>
    obtain ⟨-, rfl⟩ : index < r.memoryCount ∧ memoryHandle index = s := by simpa [memory?] using hm
    exact isTaken_of_isGenerated (Bool.or_eq_true_iff.2 (.inr (isNumbered_append "mem_" index)))
  | functions ht => exact (table?_eq ht).1 ▸ isTaken_table _ (by decide) _ _
  | offset ht => exact (table?_eq ht).2 ▸ isTaken_table _ (by decide) _ _
  | register slot =>
    refine isTaken_of_isGenerated (Bool.or_eq_true_iff.2 (.inl (Bool.or_eq_true_iff.2 (.inr ?_))))
    exact isNumbered_append "reg" slot
  | keyword hs =>
    simp only [Identifier.isTaken, String.ofList_toList, List.contains_iff_mem.2 hs, Bool.true_or]
  | reserved hs =>
    simp only [Identifier.isTaken, String.ofList_toList, List.contains_iff_mem.2 hs, Bool.true_or,
      Bool.or_true]

/-- The only one of these names that can end in a number that was added is that of a memory. -/
theorem Clashes.of_suffixed {name : String} {index k : Nat}
    (h : r.Clashes (underscored (numbered name index) k)) :
    name = "mem" ∧ index < r.memoryCount := by
  have htable {stem : String} {number : Nat} (hstem : "__TABLE_".toList <+: stem.toList)
      (hid : underscored (numbered name index) k = underscored (stem ++ "_" ++ toString number) 2) :
      False := by
    have hparts := congrArg (fun s => parts? s.toList) hid
    simp only [parts?_underscored, parts?_text, Option.some.injEq, Prod.mk.injEq] at hparts
    have htaken := Identifier.isTaken_sanitize name
    rw [hparts.1, isTaken_of_isGenerated] at htaken
    · cases htaken
    · simp only [Identifier.isGenerated, List.isPrefixOf_iff_prefix.2 hstem, Bool.true_or]
  have hwords : ∀ s ∈ Identifier.keywords ++ Identifier.reserved, parts? s.toList = none := by
    decide +kernel
  have hparts := parts?_underscored name index k
  generalize hid : underscored (numbered name index) k = id at h hparts
  cases h with
  | memory hm =>
    obtain ⟨hlt, rfl⟩ := memory?_eq hm
    rw [← underscored_zero (numbered "mem" _), parts?_underscored] at hparts
    simp only [Option.some.injEq, Prod.mk.injEq, Identifier.sanitize_mem] at hparts
    obtain ⟨hname, rfl, -⟩ := hparts
    refine ⟨(Identifier.sanitize_eq_iff Identifier.isFaithful_mem).1 ?_, hlt⟩
    exact String.toList_injective hname.symm
  | functions ht => exact (htable (by decide) (hid.trans (table?_eq ht).1)).elim
  | offset ht => exact (htable (by decide) (hid.trans (table?_eq ht).2)).elim
  | register slot =>
    have hline : '_' ∈ (slotName slot).toList := by
      have hnumbered : numbered name index = sanitize name ++ "_" ++ toString index := rfl
      rw [← hid, hnumbered]
      simp [underscored]
    have hslot : slotName slot = "reg" ++ toString slot := rfl
    rw [hslot] at hline
    simp only [String.toList_append, Nat.toString_eq_ofList_toDigits, String.toList_ofList,
      List.mem_append] at hline
    obtain hline | hline := hline
    · exact absurd hline (by decide)
    · exact absurd (Nat.isDigit_of_mem_toDigits (by decide) (by decide) hline) (by decide)
  | keyword hs => cases hparts.symm.trans (hwords id (List.mem_append_left _ hs))
  | reserved hs => cases hparts.symm.trans (hwords id (List.mem_append_right _ hs))

end Registry

open Registry

/-- **Which functions take the name of a local, a keyword or a reserved global.** The identifier of a
function is such a name exactly if the function is called `mem`, a function in front of it has the
identifier `mem`, and there is a memory of its index. -/
theorem clashes_idOf_iff {m : Module} {p : Function × Nat} (hp : p ∈ m.indexed) :
    (Registry.ofModule m).2.Clashes (m.idOf p) ↔
      m.functionName p.2 p.1 = "mem" ∧ m.GivenBefore p "mem" ∧
        p.2 < (Registry.ofModule m).2.memoryCount := by
  obtain ⟨used, hchosen, hused⟩ := exists_chosen_idOf hp
  constructor
  · intro h
    generalize m.idOf p = id at hchosen h
    cases hchosen with
    | own hfree => cases h.isTaken.symm.trans (Identifier.isTaken_sanitize _)
    | suffixed hown hbefore hfree =>
      obtain ⟨hname, hlt⟩ := h.of_suffixed
      rw [hname, Identifier.sanitize_mem] at hown
      exact ⟨hname, (hused _).1 hown, hlt⟩
  · rintro ⟨hname, hgiven, hlt⟩
    have hmemory : (Registry.ofModule m).2.memory? p.2 = some (memoryHandle p.2) := if_pos hlt
    have hclash := Clashes.memory hmemory
    have heq := (memory?_eq hmemory).2
    -- no function in front has the handle, since its index would be the same
    have hfree : numbered "mem" p.2 ∉ used := by
      intro hmem
      obtain ⟨q, hq, hless, hid⟩ := (hused _).1 hmem
      obtain ⟨_, hchosen', -⟩ := exists_chosen_idOf hq
      rw [hid, ← underscored_zero (numbered "mem" p.2)] at hchosen'
      have hindex := hchosen'.index_eq (by rw [underscored_zero, ← heq]; exact hclash.isTaken)
      omega
    rw [← hused] at hgiven
    rw [hname] at hchosen
    generalize m.idOf p = id at hchosen
    cases hchosen with
    | own hunused => exact absurd hgiven (Identifier.sanitize_mem ▸ hunused)
    | @suffixed k _ hbefore _ =>
      cases k with
      | zero =>
        rw [underscored_zero, ← heq]
        exact hclash
      | succ k =>
        have hfirst := hbefore 0 (Nat.succ_pos k)
        rw [underscored_zero] at hfirst
        exact absurd hfirst hfree

/-- Two memories, and two functions that are called `mem`. -/
def twoMemories : Module where
  types := [{}]
  fields := [.memory ⟨1, none⟩, .memory ⟨1, none⟩, .function ⟨some "mem", 0, [], []⟩,
    .function ⟨some "mem", 0, [], []⟩]

theorem clashes_idOf_twoMemories : ∃ p ∈ twoMemories.indexed,
    (Registry.ofModule twoMemories).2.Clashes (twoMemories.idOf p) := by
  have hp : (⟨some "mem", 0, [], []⟩, 1) ∈ twoMemories.indexed :=
    List.mem_cons_of_mem _ (List.mem_singleton.2 rfl)
  refine ⟨_, hp, (clashes_idOf_iff hp).2 ⟨rfl, ?_, by decide⟩⟩
  exact ⟨(⟨some "mem", 0, [], []⟩, 0), List.mem_cons_self, Nat.zero_lt_one, by decide +kernel⟩

end Moonstack
