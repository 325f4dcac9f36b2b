import Moonstack.Proofs.Chunk.Items
import Moonstack.Proofs.Chunk.SafeNames

/-!
# Whitelists

A function carries a name if it is called so or exported under it (`Registry.Carries`). Two parts
of a chunk go by the names of a whitelist, each in its own way: the bindings take the first function
that carries a name, and a function is pruned if it carries none. `whitelist_agrees` says that they
agree. A name that is carried is bound, and what is bound under a name of the whitelist is not
pruned.

That a binding means one function only is due to the identifiers: no two defined functions have the
same (`nodup_idOf`), and what stands for an imported one is not an identifier (`isValid_place`).
-/

namespace Moonstack

namespace Registry

variable {r : Registry} {m : Module} {index : Nat} {entry : FunctionEntry} {name : String}

/-- The function of an index, which has the given entry, is called so or exported so. -/
structure Carries (r : Registry) (m : Module) (index : Nat) (entry : FunctionEntry)
    (name : String) : Prop where
  found : r.function? index = some entry
  named : entry.name = name ∨
    ∃ e ∈ m.exports, e.kind = .function ∧ e.index = index ∧ e.name = name

/-- A line binds a name to an identifier, one of the whitelist or one of the export of a
function. -/
inductive Binds (r : Registry) (m : Module) (name id : String) : Prop
  | whitelisted (h : whitelistItem r m name = .binding name (.name id))
  | exported {e : Export} (he : e ∈ m.exports) (hkind : e.kind = .function)
      (h : exportItem r e = .binding name (.name id))

theorem carries_of_whitelisted (h : r.whitelisted? m name = some entry) :
    ∃ index, r.Carries m index entry name := by
  rcases Option.or_eq_some_iff.1 h with h | ⟨-, h⟩
  · obtain ⟨index, hindex⟩ := List.mem_iff_getElem?.1 (List.mem_of_find?_eq_some h)
    rw [Array.getElem?_toList] at hindex
    exact ⟨index, hindex, .inl (by simpa using List.find?_some h)⟩
  · obtain ⟨e, he, hsome⟩ := List.exists_of_findSome?_eq_some h
    split at hsome
    · rename_i hcond
      exact ⟨e.index, hsome, .inr ⟨e, he, hcond.1, rfl, hcond.2⟩⟩
    · cases hsome

namespace Carries

/-- The first function of the name is found, or one that is exported under it. -/
theorem whitelisted (h : r.Carries m index entry name) :
    ∃ entry', r.whitelisted? m name = some entry' := by
  refine Option.isSome_iff_exists.1 ?_
  rw [whitelisted?, Option.isSome_or, Bool.or_eq_true]
  rcases h.named with hname | ⟨e, he, hkind, rfl, hname⟩
  · refine .inl (List.find?_isSome.2 ⟨entry, ?_, beq_iff_eq.2 hname⟩)
    exact Array.mem_toList_iff.2 (Array.mem_of_getElem? h.found)
  · refine .inr (List.findSome?_isSome_iff.2 ⟨e, he, ?_⟩)
    rw [if_pos ⟨hkind, hname⟩, h.found]
    rfl

theorem isPruned_eq {names : List String} (h : r.Carries m index entry name) (hn : name ∈ names) :
    isPruned m (some names) index entry = false := by
  simp only [isPruned, Bool.and_eq_false_iff, Bool.not_eq_false', List.contains_iff_mem,
    List.any_eq_true, decide_eq_true_eq]
  rcases h.named with hname | ⟨e, he, hkind, hindex, hname⟩
  · exact .inl (hname ▸ hn)
  · exact .inr ⟨e, he, hkind, hindex, hname ▸ hn⟩

end Carries

theorem Binds.carries {id : String} (h : r.Binds m name id) :
    ∃ index entry, r.Carries m index entry name ∧ entry.id = id := by
  cases h with
  | whitelisted h =>
    unfold whitelistItem at h
    split at h
    · rename_i entry hentry
      obtain ⟨index, hc⟩ := carries_of_whitelisted hentry
      cases h
      exact ⟨index, entry, hc, rfl⟩
    · cases h
  | @exported e he hkind h =>
    unfold exportItem exportTarget? at h
    rw [hkind] at h
    simp only at h
    cases hentry : r.function? e.index with
    | none =>
      rw [hentry] at h
      cases h
    | some entry =>
      rw [hentry] at h
      cases h
      exact ⟨e.index, entry, ⟨hentry, .inr ⟨e, he, hkind, rfl, rfl⟩⟩, rfl⟩

end Registry

open Registry

/-- An imported function is not called by an identifier. -/
theorem isValid_place (i : Import) : Identifier.isValid i.place.text = false := by
  refine Bool.eq_false_iff.2 fun h => ?_
  obtain ⟨-, hparts, -⟩ := Identifier.isValid_iff.1 h
  rw [Import.place, Expr.member] at hparts
  split at hparts
  · exact absurd (hparts '.' (by simp [Expr.text])) (by decide)
  · exact absurd (hparts '[' (by simp [Expr.text])) (by decide)

/-- An identifier of a defined function is that of no other function. -/
theorem index_of_idOf {m : Module} {p : Function × Nat} (hp : p ∈ m.indexed) {index : Nat}
    {entry : FunctionEntry} (h : (Registry.ofModule m).2.function? index = some entry)
    (hid : entry.id = m.idOf p) : index = p.2 := by
  rcases (describes_ofModule m).entries h with ⟨-, i, hi⟩ | ⟨f, hf⟩
  · obtain ⟨_, hchosen, -⟩ := exists_chosen_idOf hp
    have hvalid := hchosen.isValid
    rw [← hid, hi, isValid_place] at hvalid
    cases hvalid
  · have hsame : m.idOf (f, index) = m.idOf p := (idOf_of_entry h).trans hid
    rw [← List.inj_on_of_nodup_map (nodup_idOf m) hf hp hsame]

/-- **Bindings and pruning go by a whitelist alike.** A defined function to which a name of the
whitelist is bound is not pruned: if the module is written, the code of the function or the stub of
its rejection is. And a name that some function carries is bound by its line to such a function. -/
theorem whitelist_agrees {options : Options} {m : Module} {names : List String}
    (hw : options.whitelist = some names) :
    (∀ name ∈ names, ∀ p ∈ m.indexed, (Registry.ofModule m).2.Binds m name (m.idOf p) →
      ∃ entry, (Registry.ofModule m).2.function? p.2 = some entry ∧
        isPruned m options.whitelist p.2 entry = false ∧
        ∀ chunk, (lowerModule options m).outcome.1 = .ok chunk → ∃ items, items <:+: chunk.items ∧
          ((∃ lowered,
              (lowerFunction (m.env options) entry.id entry.name p.1).outcome.1 = .ok lowered ∧
              items = entry.definitions lowered) ∨
            ∃ e r, (lowerFunction (m.env options) entry.id entry.name p.1).outcome.1 = .error e ∧
              e.cause = .rejected r ∧ items = [entry.rejectedStub r])) ∧
    ∀ (k : Nat) (name : String), names[k]? = some name →
      (∃ index entry, (Registry.ofModule m).2.Carries m index entry name) →
      ∃ index entry, (Registry.ofModule m).2.Carries m index entry name ∧
        (moduleExports (m.env options) m)[k]? = some (.binding name (.name entry.id)) := by
  rw [hw]
  refine ⟨fun name hn p hp hb => ?_, ?_⟩
  · obtain ⟨index, entry, hc, hid⟩ := hb.carries
    obtain rfl := index_of_idOf hp hc.found hid
    have hkept := hc.isPruned_eq hn
    refine ⟨entry, hc.found, hkept, fun chunk hchunk => ?_⟩
    obtain ⟨-, parts, initial, hitems, hparts, -⟩ := items_lowerModule hchunk
    obtain ⟨items, hpart, -, hdef⟩ := get_of_indexed hparts hp
    refine ⟨items, ?_, ?_⟩
    · have hflat : items <:+: parts.flatten :=
        List.infix_of_mem_flatten (List.mem_of_getElem? hpart)
      rw [hitems, List.append_assoc, List.append_assoc]
      exact hflat.trans ⟨_, _, List.append_assoc _ _ _⟩
    · cases hdef with
      | pruned hentry hpruned =>
        cases hc.found.symm.trans hentry
        cases hkept.symm.trans (hw ▸ hpruned)
      | rejected hentry _ he hr =>
        cases hc.found.symm.trans hentry
        exact .inr ⟨_, _, he, hr, rfl⟩
      | written hentry _ hl =>
        cases hc.found.symm.trans hentry
        exact .inl ⟨_, hl, rfl⟩
  · rintro k name hk ⟨_, _, hc⟩
    obtain ⟨entry, hentry⟩ := hc.whitelisted
    obtain ⟨index, hcarries⟩ := carries_of_whitelisted hentry
    have hitem : whitelistItem (Registry.ofModule m).2 m name = .binding name (.name entry.id) := by
      rw [whitelistItem, hentry]
    refine ⟨index, entry, hcarries, ?_⟩
    have hlt := (List.getElem?_eq_some_iff.1 hk).1
    simp only [moduleExports, Module.env, hw, Option.getD_some, List.append_assoc]
    rw [List.getElem?_append_left (by simpa using hlt), List.getElem?_map, hk, Option.map_some,
      hitem]

/-- Two functions of one name, the second of which is exported. -/
def namesakes : Module where
  types := [⟨[], []⟩]
  fields := [.function ⟨some "f", 0, [], []⟩, .function ⟨some "f", 0, [], []⟩,
    .exported ⟨"g", .function, 1⟩]

/-- The export keeps the second function, and the name is bound by its own line too. -/
theorem whitelist_agrees_namesakes :
    (∃ entry, (Registry.ofModule namesakes).2.function? 1 = some entry ∧
      isPruned namesakes (some ["g"]) 1 entry = false) ∧
    ∃ index entry, (Registry.ofModule namesakes).2.Carries namesakes index entry "g" ∧
      (moduleExports (namesakes.env { whitelist := some ["g"] }) namesakes)[0]? =
        some (.binding "g" (.name entry.id)) := by
  obtain ⟨hkept, hbound⟩ := @whitelist_agrees { whitelist := some ["g"] } namesakes ["g"] rfl
  have hexport : ⟨"g", .function, 1⟩ ∈ namesakes.exports := List.mem_singleton_self _
  constructor
  · obtain ⟨entry, hentry, hpruned, -⟩ := hkept "g" (List.mem_singleton_self _) (_, 1)
      (List.mem_cons_of_mem _ (List.mem_singleton_self _)) (.exported hexport rfl rfl)
    exact ⟨entry, hentry, hpruned⟩
  · exact hbound 0 "g" rfl ⟨1, _, rfl, .inr ⟨_, hexport, rfl, rfl, rfl⟩⟩

end Moonstack
