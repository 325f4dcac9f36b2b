import Moonstack.Proofs.Chunk.DefinedNames
import Moonstack.Proofs.Simulation.Functions

/-!
# When a module is refused

A module is written unless a function that is kept has an unknown signature, or an initializer that
is written is oversized (`program_refused_iff`). A function that is kept and oversized stands in the
chunk as a stub. Registers given back twice, blocks closed while none is open, stacks of the wrong
depth and functions without an entry do not occur, for any module and any options.
-/

namespace Moonstack

open Logged

/-- Only oversized functions are refused. -/
theorem oversized_of_rejected {env : Env} {id name : String} {f : Function} {e : Failure}
    {r : Rejection} (he : (lowerFunction env id name f).outcome.1 = .error e)
    (hr : e.cause = .rejected r) : env.options.oversized f.body = true := by
  cases hs : env.registry.types[f.type]? with
  | none =>
    rw [(unknown_lowerFunction id name hs).outcome] at he
    cases he
    cases hr
  | some signature =>
    cases ho : env.options.oversized f.body with
    | true => rfl
    | false =>
      obtain ⟨_, _, _, lowered, -, -, -, -, -, -, hy⟩ := yields_lowerFunction id name hs ho
      rw [hy.outcome] at he
      cases he

namespace Env.Defines

variable {env : Env} {m : Module} {p : Function × Nat} {items : List Item} {entry : FunctionEntry}
  (h : env.Defines m p items)
include h

/-- A function that is kept and oversized becomes a stub. -/
theorem of_oversized (hentry : env.registry.function? p.2 = some entry)
    (hkept : isPruned m env.options.whitelist p.2 entry = false)
    (ho : env.options.oversized p.1.body = true) : ∃ r, items = [entry.rejectedStub r] := by
  cases h with
  | pruned hentry' hp =>
    cases hentry.symm.trans hentry'
    cases hkept.symm.trans hp
  | rejected hentry' _ _ _ =>
    cases hentry.symm.trans hentry'
    exact ⟨_, rfl⟩
  | written _ _ hl =>
    obtain ⟨-, -, -, -, -, ho', -⟩ := written_lowerFunction hl
    cases ho.symm.trans ho'

/-- A stub of a refused function has its name from a function that is pruned or oversized. -/
theorem of_rejectedStub {r : Rejection} (hr : entry.rejectedStub r ∈ items) :
    ∃ own, env.registry.function? p.2 = some own ∧ own.id = entry.id ∧
      (isPruned m env.options.whitelist p.2 own = true ∨ env.options.oversized p.1.body = true) := by
  have hid {own : FunctionEntry} {statement : String}
      (h : entry.rejectedStub r = own.stub statement) : own.id = entry.id :=
    (Option.some.inj (congrArg Item.definedName? h)).symm
  cases h with
  | @pruned own hentry hp => exact ⟨own, hentry, hid (List.mem_singleton.1 hr), .inl hp⟩
  | @rejected own _ _ hentry _ he hcause =>
    exact ⟨own, hentry, hid (List.mem_singleton.1 hr), .inr (oversized_of_rejected he hcause)⟩
  | written =>
    unfold FunctionEntry.definitions FunctionEntry.rejectedStub FunctionEntry.stub at hr
    split at hr <;> simp at hr

end Env.Defines

/-- What a part of the chunk holds belongs to a function. -/
theorem exists_of_mem_flatten {α β : Type} {R : α → List β → Prop} {as : List α}
    {parts : List (List β)} (h : List.Forall₂ R as parts) {b : β} (hb : b ∈ parts.flatten) :
    ∃ a ∈ as, ∃ part, R a part ∧ b ∈ part := by
  induction h with
  | nil => cases hb
  | cons hone _ ih =>
    obtain hb | hb := List.mem_append.1 hb
    · exact ⟨_, List.mem_cons_self, _, hone, hb⟩
    · obtain ⟨a, ha, hpart⟩ := ih hb
      exact ⟨a, List.mem_cons_of_mem _ ha, hpart⟩

section

variable {options : Options} {m : Module}

/-- A definition stands among what the functions become. -/
theorem mem_flatten_of_define {parts : List (List Item)} {initial : List Item} {d : Definition}
    (hinitial : (m.env options).Covers m.initialCode initial)
    (hd : .define d ∈ (Registry.ofModule m).1 ++ parts.flatten ++ initial ++
      moduleExports (m.env options) m) : .define d ∈ parts.flatten := by
  have hplain {items : List Item} (h : ∀ item ∈ items, item.isPlain = true) :
      .define d ∉ items := fun hm => by cases h _ hm
  have hnone : (Registry.ofModule m).1.filterMap Item.definedName? = [] := by
    rw [filterMap_ofModule Item.definedName_of_isPlain]
    exact List.filterMap_eq_nil_iff.2 fun _ _ => rfl
  have hdeclared : .define d ∉ (Registry.ofModule m).1 := fun hm => by
    cases List.filterMap_eq_nil_iff.1 hnone _ hm
  simpa only [List.mem_append, hplain hinitial.isPlain, hplain (isPlain_moduleExports _ m),
    hdeclared, or_false, false_or] using hd

/-- Of a function that is kept there is a stub in the chunk exactly if it is oversized. -/
theorem rejectedStub_mem_iff {parts : List (List Item)} {initial : List Item}
    (hparts : List.Forall₂ ((m.env options).Defines m) m.indexed parts)
    (hinitial : (m.env options).Covers m.initialCode initial) {p : Function × Nat}
    (hp : p ∈ m.indexed) (hkept : m.prunes options p = false) : ∃ entry,
      (Registry.ofModule m).2.function? p.2 = some entry ∧
        ((∃ r, entry.rejectedStub r ∈ (Registry.ofModule m).1 ++ parts.flatten ++ initial ++
          moduleExports (m.env options) m) ↔ options.oversized p.1.body = true) := by
  obtain ⟨entry, hentry, hname, -⟩ := (Registry.describes_ofModule m).defined p hp
  have hkept' := (isPruned_eq hname).trans hkept
  refine ⟨entry, hentry, fun ⟨r, hr⟩ => ?_, fun ho => ?_⟩
  · obtain ⟨q, hq, part, hpart, hr⟩ :=
      exists_of_mem_flatten hparts (mem_flatten_of_define hinitial hr)
    obtain ⟨own, hown, hid, hreason⟩ := hpart.of_rejectedStub hr
    -- functions have different names, so the stub is that of the function itself
    have hsame : m.idOf q = m.idOf p := by rw [idOf_of_entry hown, hid, idOf_of_entry hentry]
    obtain rfl := List.inj_on_of_nodup_map (nodup_idOf m) hq hp hsame
    cases hentry.symm.trans hown
    exact hreason.resolve_left fun hpruned => by cases hkept'.symm.trans hpruned
  · obtain ⟨items, hitems, -, hdefines⟩ := Registry.get_of_indexed hparts hp
    obtain ⟨r, rfl⟩ := hdefines.of_oversized hentry hkept' ho
    have hmem := List.mem_flatten_of_mem (List.mem_of_getElem? hitems) List.mem_cons_self
    exact ⟨r, by simp [hmem]⟩

end

/-- **When a module is refused.** A module is refused exactly if a function that is kept has an
unknown signature or an initializer that is written is oversized, for whatever module and options,
and the cause is then an unknown signature or a rejection and none of the others. Otherwise the items
of the chunk are the declarations, what each function becomes, the initializers and the exports, and
of a function that is kept there is a stub exactly if the function is oversized. -/
theorem program_refused_iff (options : Options) (m : Module) :
    ((∃ e, (programOfModule options m).outcome.1 = .error e) ↔
      options.RefusesSignature m ∨ options.RefusesInitial m) ∧
    (∀ e, (programOfModule options m).outcome.1 = .error e → e.IsDocumented) ∧
    ∀ text, (programOfModule options m).outcome.1 = .ok text →
      ∃ chunk parts initial, (lowerModule options m).outcome.1 = .ok chunk ∧ text = chunk.text ∧
        chunk.items = (Registry.ofModule m).1 ++ parts.flatten ++ initial ++
          moduleExports (m.env options) m ∧
        (m.env options).Covers m.initialCode initial ∧
        List.Forall₂ ((m.env options).Defines m) m.indexed parts ∧
        ∀ p ∈ m.indexed, m.prunes options p = false →
          ∃ entry, (Registry.ofModule m).2.function? p.2 = some entry ∧
            ((∃ r, entry.rejectedStub r ∈ chunk.items) ↔ options.oversized p.1.body = true) := by
  rcases ends_lowerModule options m with
    ⟨hb, chunk, ⟨-, parts, initial, hitems, hparts, hinitial, -⟩, hy⟩ | ⟨hb, e, he, hy⟩
  · have hprogram : Yields (programOfModule options m) (.ok chunk.text) := hy.bind (.pure _)
    rw [hprogram.outcome]
    refine ⟨iff_of_false nofun hb, nofun, fun text htext => ?_⟩
    refine ⟨chunk, parts, initial, hy.outcome, (Except.ok.inj htext).symm, hitems, hinitial, hparts,
      fun p hp hkept => ?_⟩
    rw [hitems]
    exact rejectedStub_mem_iff hparts hinitial hp hkept
  · have hprogram : Yields (programOfModule options m) (.error e) := hy.bind_error
    rw [hprogram.outcome]
    refine ⟨iff_of_true ⟨e, rfl⟩ hb, fun e' h => ?_, nofun⟩
    rw [← Except.error.inj h]
    exact he

end Moonstack
