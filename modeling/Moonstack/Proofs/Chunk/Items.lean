import Moonstack.Chunk.Assembly
import Moonstack.Proofs.Chunk.Index
import Moonstack.Proofs.Emission.Functions

/-!
# The items of a chunk

What stands in a chunk that was written, part by part (`items_lowerModule`): the declarations, what
each function became, the initializers, the bindings and the call at start.

`Logged.Ends bad P x` is the form in which the parts of a chunk are treated: `x` is refused if
`bad`, and otherwise gives a result with `P`.
-/

namespace Moonstack

open Logged

/-- A failure that a module can run into: an unknown signature or a rejection. -/
def Failure.IsDocumented (e : Failure) : Prop :=
  (∃ function type, e.cause = .signature function type) ∨ ∃ r, e.cause = .rejected r

theorem Failure.IsDocumented.within {e : Failure} (h : e.IsDocumented) (c : Context) :
    (e.within c).IsDocumented := h

namespace Logged

variable {α β : Type}

/-- The computation is refused, for a documented reason, if `bad`, and else gives a result with `P`.
-/
def Ends (bad : Prop) (P : α → Prop) (x : Logged α) : Prop :=
  (¬ bad ∧ ∃ a, P a ∧ Yields x (.ok a)) ∨ (bad ∧ ∃ e, e.IsDocumented ∧ Yields x (.error e))

namespace Ends

variable {bad bad' : Prop} {P : α → Prop} {Q : β → Prop} {x : Logged α} {k : α → Logged β}

theorem ok {a : α} (ha : P a) (hx : Yields x (.ok a)) : Ends False P x :=
  .inl ⟨not_false, a, ha, hx⟩

theorem bind (hx : Ends bad P x) (hk : ∀ a, P a → Ends bad' Q (k a)) :
    Ends (bad ∨ bad') Q (x >>= k) := by
  rcases hx with ⟨hb, a, ha, hy⟩ | ⟨hb, e, he, hy⟩
  · rcases hk a ha with ⟨hb', b, hQ, hy'⟩ | ⟨hb', e, he, hy'⟩
    · exact .inl ⟨not_or.2 ⟨hb, hb'⟩, b, hQ, hy.bind hy'⟩
    · exact .inr ⟨.inr hb', e, he, hy.bind hy'⟩
  · exact .inr ⟨.inl hb, e, he, hy.bind_error⟩

theorem congr (hx : Ends bad P x) (h : bad ↔ bad') : Ends bad' P x := by
  rwa [propext h] at hx

/-- A step that cannot be refused. -/
theorem after {y : Logged β} {f : β → Logged α} {b : β} (hy : Yields y (.ok b))
    (hx : Ends bad P (f b)) : Ends bad P (y >>= f) :=
  (Ends.bind (P := (· = b)) (.ok rfl hy) fun _ h => h ▸ hx).congr (or_iff_right not_false)

theorem within (c : Context) (hx : Ends bad P x) : Ends bad P (Logged.within c x) := by
  rcases hx with ⟨hb, a, ha, hx⟩ | ⟨hb, e, he, hx⟩
  · exact .inl ⟨hb, a, ha, hx.within c⟩
  · exact .inr ⟨hb, e.within c, he.within c, hx.within c⟩

theorem map (hx : Ends bad P x) (f : α → β) (hf : ∀ a, P a → Q (f a)) :
    Ends bad Q (x >>= fun a => Pure.pure (f a)) :=
  (hx.bind fun a ha => .ok (hf a ha) (.pure _)).congr (or_iff_left not_false)

/-- The result is the outcome. -/
theorem noted (hx : Ends bad P x) : Ends bad (fun a => P a ∧ x.outcome.1 = .ok a) x :=
  hx.imp_left fun ⟨hb, a, ha, hy⟩ => ⟨hb, a, ⟨ha, hy.outcome⟩, hy⟩

theorem of_outcome {a : α} (hx : Ends bad P x) (h : x.outcome.1 = .ok a) : P a := by
  rcases hx with ⟨-, b, hb, hy⟩ | ⟨-, e, -, hy⟩
  · cases hy.outcome.symm.trans h
    exact hb
  · cases hy.outcome.symm.trans h

theorem mapM {γ : Type} {bad : γ → Prop} {R : γ → α → Prop} {f : γ → Logged α} (items : List γ)
    (hf : ∀ c, Ends (bad c) (R c) (f c)) :
    Ends (∃ c ∈ items, bad c) (List.Forall₂ R items) (items.mapM f) := by
  induction items with
  | nil =>
    rw [List.mapM_nil]
    exact (Ends.ok .nil (.pure _)).congr (by simp)
  | cons c rest ih =>
    rw [List.mapM_cons]
    exact ((hf c).bind fun a ha => ih.map _ fun _ has => .cons ha has).congr (by simp)

end Ends

end Logged

/-- Does the whitelist leave out the function of an index? -/
def Module.prunes (m : Module) (options : Options) (p : Function × Nat) : Bool :=
  match options.whitelist with
  | none => false
  | some names =>
    !names.contains (m.functionName p.2 p.1) &&
      !m.exports.any fun e => e.kind = .function ∧ e.index = p.2 ∧ names.contains e.name

theorem isPruned_eq {m : Module} {options : Options} {p : Function × Nat} {entry : FunctionEntry}
    (h : entry.name = m.functionName p.2 p.1) :
    isPruned m options.whitelist p.2 entry = m.prunes options p := by
  unfold isPruned
  rw [h]
  rfl

/-- What a function of an index becomes in a chunk. -/
inductive Env.Defines (env : Env) (m : Module) (p : Function × Nat) : List Item → Prop
  | pruned {entry : FunctionEntry} (hentry : env.registry.function? p.2 = some entry)
      (hp : isPruned m env.options.whitelist p.2 entry = true) : Defines env m p [entry.prunedStub]
  | rejected {entry : FunctionEntry} {e : Failure} {r : Rejection}
      (hentry : env.registry.function? p.2 = some entry)
      (hp : isPruned m env.options.whitelist p.2 entry = false)
      (he : (lowerFunction env entry.id entry.name p.1).outcome.1 = .error e)
      (hr : e.cause = .rejected r) : Defines env m p [entry.rejectedStub r]
  | written {entry : FunctionEntry} {lowered : Lowered}
      (hentry : env.registry.function? p.2 = some entry)
      (hp : isPruned m env.options.whitelist p.2 entry = false)
      (hl : (lowerFunction env entry.id entry.name p.1).outcome.1 = .ok lowered) :
      Defines env m p (entry.definitions lowered)

section

variable {env : Env} {m : Module}

/-- What becomes of a function, and when it is refused. -/
theorem ends_functionItems (hr : env.registry.Describes m) {p : Function × Nat}
    (hp : p ∈ m.indexed) (tally : Tally) :
    Ends (m.prunes env.options p = false ∧ m.types.length ≤ p.1.type)
      (fun result => env.Defines m p result.1) (functionItems env m p.2 p.1 tally) := by
  obtain ⟨entry, hentry, hname, -⟩ := hr.defined p hp
  unfold functionItems
  rw [hentry]
  simp only
  cases hprune : m.prunes env.options p with
  | true =>
    have hpruned := (isPruned_eq hname).trans hprune
    rw [if_pos hpruned]
    exact (Ends.ok (.pruned hentry hpruned) (.pure _)).congr (by simp)
  | false =>
    have hkept := (isPruned_eq hname).trans hprune
    simp only [hkept, Bool.false_eq_true, if_false, true_and]
    unfold keptFunction
    cases hs : env.registry.types[p.1.type]? with
    | none =>
      have hlen : m.types.length ≤ p.1.type := by
        rw [← hr.types]
        exact List.getElem?_eq_none_iff.1 hs
      refine .inr ⟨hlen,
        (Failure.of (.signature entry.name p.1.type)).within (.function entry.name),
        .inl ⟨entry.name, p.1.type, rfl⟩, ?_⟩
      exact (unknown_lowerFunction _ _ hs).attempt.bind (.throw _)
    | some signature =>
      have hlen : ¬ m.types.length ≤ p.1.type := by
        rw [← hr.types]
        exact Nat.not_le.2 (List.getElem?_eq_some_iff.1 hs).1
      cases ho : env.options.oversized p.1.body with
      | true =>
        obtain ⟨reason, hy⟩ := refuses_lowerFunction entry.id entry.name hs ho
        exact .inl ⟨hlen, _, .rejected hentry hkept hy.outcome rfl,
          hy.attempt.bind ((Yields.record _ _).bind (.pure _))⟩
      | false =>
        obtain ⟨_, _, _, lowered, -, -, -, -, -, -, hy⟩ :=
          yields_lowerFunction entry.id entry.name hs ho
        exact .inl ⟨hlen, _, .written hentry hkept hy.outcome, hy.attempt.bind (.pure _)⟩

theorem ends_functionsItems (hr : env.registry.Describes m) (functions : List Function)
    (index : Nat) (tally : Tally) (hm : ∀ p ∈ functions.zipIdx index, p ∈ m.indexed) :
    Ends (∃ p ∈ functions.zipIdx index, m.prunes env.options p = false ∧ m.types.length ≤ p.1.type)
      (fun result => ∃ parts, result.1 = parts.flatten ∧
        List.Forall₂ (env.Defines m) (functions.zipIdx index) parts)
      (functionsItems env m index tally functions) := by
  induction functions generalizing index tally with
  | nil => exact (Ends.ok ⟨[], rfl, .nil⟩ (.pure _)).congr (by simp)
  | cons f rest ih =>
    rw [List.zipIdx_cons, List.forall_mem_cons] at hm
    rw [List.zipIdx_cons, functionsItems]
    refine ((ends_functionItems hr hm.1 tally).bind fun first hfirst =>
      (ih (index + 1) first.2 hm.2).map _ ?_).congr (by simp)
    rintro more ⟨parts, hparts, hrest⟩
    exact ⟨first.1 :: parts, congrArg (first.1 ++ ·) hparts, .cons hfirst hrest⟩

theorem ends_moduleFunctions (env : Env) (hr : env.registry.Describes m) :
    Ends (∃ p ∈ m.indexed, m.prunes env.options p = false ∧ m.types.length ≤ p.1.type)
      (fun items => ∃ parts, items = parts.flatten ∧
        List.Forall₂ (env.Defines m) m.indexed parts) (moduleFunctions env m) := by
  unfold moduleFunctions
  rw [hr.imported]
  refine ((ends_functionsItems hr m.functions m.importedFunctions {} fun p hp => hp).bind
    fun result hresult => ?_).congr (or_iff_left not_false)
  exact .after (.record _ _) (.ok hresult (.pure _))

/-- What the value of an initializer may be for. -/
inductive Env.Uses (env : Env) : InitialUse → Prop
  | global (slot : Nat) : Uses env (.global slot)
  | elements {index : Nat} {handle : TableHandle} (h : env.registry.table? index = some handle)
      (functions : List (Option Nat)) :
      Uses env (.elements handle (functions.map (elementExpr env.registry)))
  | data {index : Nat} {handle : String} (h : env.registry.memory? index = some handle)
      (bytes : List UInt8) : Uses env (.data handle bytes)

/-- What an initializer with the given code becomes in a chunk. -/
inductive Env.Initializes (env : Env) (code : List Instr) : Item → Prop
  | intro {use : InitialUse} {lowered : Lowered} (hu : env.Uses use)
      (hl : (lowerInitializer env use.id code).outcome.1 = .ok lowered) :
      Initializes env code (.initial lowered use)

/-- A comment on something that an initializer needs and that is not there. -/
inductive Item.Misses : Item → Prop
  | elementTable (index : Nat) : Misses (.warning (.elementTable index))
  | elementFunction (index : Nat) : Misses (.warning (.elementFunction index))
  | dataMemory (index : Nat) : Misses (.warning (.dataMemory index))

/-- The items are initializers with the given code, and comments on what is missing. -/
structure Env.Covers (env : Env) (codes : List (List Instr)) (items : List Item) : Prop where
  item : ∀ item ∈ items, (∃ code ∈ codes, env.Initializes code item) ∨ item.Misses
  code : ∀ code ∈ codes, ∃ item ∈ items, env.Initializes code item

namespace Env.Covers

variable {codes codes' : List (List Instr)} {items items' : List Item}

theorem nil : env.Covers [] [] := ⟨nofun, nofun⟩

theorem append (h : env.Covers codes items) (h' : env.Covers codes' items') :
    env.Covers (codes ++ codes') (items ++ items') where
  item := List.forall_mem_append.2
    ⟨fun item hitem => (h.item item hitem).imp_left fun ⟨code, hcode, hi⟩ =>
        ⟨code, List.mem_append_left _ hcode, hi⟩,
      fun item hitem => (h'.item item hitem).imp_left fun ⟨code, hcode, hi⟩ =>
        ⟨code, List.mem_append_right _ hcode, hi⟩⟩
  code := List.forall_mem_append.2
    ⟨fun code hcode => (h.code code hcode).imp fun _ => .imp_left (List.mem_append_left _),
      fun code hcode => (h'.code code hcode).imp fun _ => .imp_left (List.mem_append_right _)⟩

theorem one {code : List Instr} {item : Item} (h : env.Initializes code item) :
    env.Covers [code] [item] where
  item := List.forall_mem_singleton.2 (.inl ⟨code, List.mem_singleton_self _, h⟩)
  code := List.forall_mem_singleton.2 ⟨item, List.mem_singleton_self _, h⟩

theorem misses (h : ∀ item ∈ items, item.Misses) : env.Covers [] items :=
  ⟨fun item hitem => .inr (h item hitem), nofun⟩

theorem flatten {γ : Type} {codes : γ → List (List Instr)} {cs : List γ} {parts : List (List Item)}
    (h : List.Forall₂ (fun c items => env.Covers (codes c) items) cs parts) :
    env.Covers (cs.flatMap codes) parts.flatten := by
  induction h with
  | nil => exact nil
  | cons hone _ ih => exact hone.append ih

end Env.Covers

/-- The code of the initializers of a module, without those that have no table or memory to store
into. -/
def Module.initialCode (m : Module) : List (List Instr) :=
  m.globals.map Global.init ++
    m.elements.flatMap (fun e => if e.table < m.tableCount then [e.offset] else []) ++
    m.dataSegments.flatMap fun d => if d.memory < m.memoryCount then [d.offset] else []

/-- An initializer that is written is oversized. -/
def Options.RefusesInitial (options : Options) (m : Module) : Prop :=
  (∃ g ∈ m.globals, options.oversized g.init = true) ∨
    (∃ e ∈ m.elements, e.table < m.tableCount ∧ options.oversized e.offset = true) ∨
    ∃ d ∈ m.dataSegments, d.memory < m.memoryCount ∧ options.oversized d.offset = true

theorem ends_initialItem {use : InitialUse} (hu : env.Uses use) (code : List Instr) :
    Ends (env.options.oversized code = true) (env.Initializes code) (initialItem env use code) := by
  have h : Ends (env.options.oversized code = true) (fun _ => True)
      (lowerInitializer env use.id code) := by
    cases ho : env.options.oversized code with
    | false =>
      obtain ⟨lowered, hy⟩ := yields_lowerInitializer use.id ho
      exact .inl ⟨Bool.false_ne_true, lowered, trivial, hy⟩
    | true =>
      obtain ⟨reason, hy⟩ := refuses_lowerInitializer use.id ho
      exact .inr ⟨rfl, _, .inr ⟨reason, rfl⟩, hy⟩
  exact (h.noted.within _).map _ fun _ hl => .intro hu hl.2

theorem ends_globalItems (globals : List Global) (slot : Nat) :
    Ends (∃ g ∈ globals, env.options.oversized g.init = true)
      (env.Covers (globals.map Global.init)) (globalItems env slot globals) := by
  induction globals generalizing slot with
  | nil => exact (Ends.ok .nil (.pure _)).congr (by simp)
  | cons g rest ih =>
    exact ((ends_initialItem (.global slot) g.init).bind fun _ hitem =>
      (ih (slot + 1)).map _ fun _ hmore => (Env.Covers.one hitem).append hmore).congr (by simp)

theorem yields_logAll (items : List Item) : Yields (Item.logAll items) (.ok ()) := by
  unfold Item.logAll
  induction items.filterMap Item.anomaly? with
  | nil => exact .pure ()
  | cons a rest ih => exact (Yields.record _ _).bind ih

theorem ends_elementItems (hr : env.registry.Describes m) (e : ElementSegment) :
    Ends (e.table < m.tableCount ∧ env.options.oversized e.offset = true)
      (env.Covers (if e.table < m.tableCount then [e.offset] else [])) (elementItems env e) := by
  unfold elementItems
  by_cases h : e.table < m.tableCount
  · have hhandle : env.registry.table? e.table = some (tableHandle e.table) := by
      rw [Registry.table?, hr.tables, if_pos h]
    rw [if_pos h, hhandle]
    refine .after (yields_logAll _) (((ends_initialItem (.elements hhandle e.functions) e.offset).map
      _ fun item hitem => (Env.Covers.misses fun i hi => ?_).append (.one hitem)).congr
      (and_iff_right h).symm)
    obtain ⟨index, -, rfl⟩ := List.mem_map.1 hi
    exact .elementFunction index
  · have hnone : env.registry.table? e.table = none := by
      rw [Registry.table?, hr.tables, if_neg h]
    rw [if_neg h, hnone]
    exact .after (yields_logAll _) ((Ends.ok (.misses (List.forall_mem_singleton.2
      (.elementTable _))) (.pure _)).congr (by simp [h]))

theorem ends_dataItems (hr : env.registry.Describes m) (d : DataSegment) :
    Ends (d.memory < m.memoryCount ∧ env.options.oversized d.offset = true)
      (env.Covers (if d.memory < m.memoryCount then [d.offset] else [])) (dataItems env d) := by
  unfold dataItems
  by_cases h : d.memory < m.memoryCount
  · have hhandle : env.registry.memory? d.memory = some (memoryHandle d.memory) := by
      rw [Registry.memory?, hr.memories, if_pos h]
    rw [if_pos h, hhandle]
    exact ((ends_initialItem (.data hhandle d.bytes) d.offset).map _ fun _ hitem =>
      .one hitem).congr (and_iff_right h).symm
  · have hnone : env.registry.memory? d.memory = none := by
      rw [Registry.memory?, hr.memories, if_neg h]
    rw [if_neg h, hnone]
    exact .after (yields_logAll _) ((Ends.ok (.misses (List.forall_mem_singleton.2
      (.dataMemory _))) (.pure _)).congr (by simp [h]))

theorem ends_moduleInitial (env : Env) (hr : env.registry.Describes m) :
    Ends (env.options.RefusesInitial m) (env.Covers m.initialCode) (moduleInitial env m) :=
  (ends_globalItems m.globals _).bind fun _ hglobals =>
    (Ends.mapM m.elements (ends_elementItems hr)).bind fun _ helements =>
      (Ends.mapM m.dataSegments (ends_dataItems hr)).map _ fun _ hdata =>
        (hglobals.append (.flatten helements)).append (.flatten hdata)

end

/-- A function that is kept has an unknown signature. -/
def Options.RefusesSignature (options : Options) (m : Module) : Prop :=
  ∃ p ∈ m.indexed, m.prunes options p = false ∧ m.types.length ≤ p.1.type

/-- What bodies know of a module. -/
def Module.env (options : Options) (m : Module) : Env := ⟨options, (Registry.ofModule m).2⟩

/-- The items are the parts of a module, in the order of a chunk. -/
def Env.Assembles (env : Env) (m : Module) (items : List Item) : Prop :=
  ∃ parts initial, items = (Registry.ofModule m).1 ++ parts.flatten ++ initial ++
      moduleExports env m ∧
    List.Forall₂ (env.Defines m) m.indexed parts ∧ env.Covers m.initialCode initial ∧
    (moduleInitial env m).outcome.1 = .ok initial

theorem ends_moduleItems (options : Options) (m : Module) :
    Ends (options.RefusesSignature m ∨ options.RefusesInitial m) ((m.env options).Assembles m)
      (moduleItems options m) := by
  have hr := Registry.describes_ofModule m
  refine .after (yields_logAll _) ?_
  refine (ends_moduleFunctions (m.env options) hr).bind ?_
  rintro functions ⟨parts, rfl, hparts⟩
  refine ((ends_moduleInitial (m.env options) hr).noted.bind fun initial hinitial => ?_).congr
    (or_iff_left not_false)
  exact .after (yields_logAll _) (.ok ⟨parts, initial, rfl, hparts, hinitial⟩ (.pure _))

/-- **The parts of a chunk**, and when there is none. -/
theorem ends_lowerModule (options : Options) (m : Module) :
    Ends (options.RefusesSignature m ∨ options.RefusesInitial m) (fun (chunk : Chunk) =>
      chunk.name = m.name.getD unnamedModule ∧ (m.env options).Assembles m chunk.items)
      (lowerModule options m) :=
  .within _ ((ends_moduleItems options m).map _ fun _ h => ⟨rfl, h⟩)

/-- **The items of a module**, part by part. -/
theorem items_lowerModule {options : Options} {m : Module} {chunk : Chunk}
    (h : (lowerModule options m).outcome.1 = .ok chunk) :
    chunk.name = m.name.getD unnamedModule ∧ (m.env options).Assembles m chunk.items :=
  (ends_lowerModule options m).of_outcome h

def Field.unsupported? : Field → Option String
  | unsupported description => some description
  | _ => none

def Module.unsupportedFields (m : Module) : List String := m.fields.filterMap Field.unsupported?

/-- Does the item neither define a function nor comment on an unsupported field? -/
def Item.isPlain : Item → Bool
  | define _ | warning (.unsupported _) => false
  | _ => true

namespace Registry

variable {r : Registry} {item : Item}

theorem mem_declareImports {imports : List Import} (h : item ∈ (r.declareImports imports).1) :
    ∃ r i, item ∈ (Registry.declareImport r i).1 := by
  induction imports generalizing r with
  | nil => cases h
  | cons i rest ih => exact (List.mem_append.1 h).elim (fun h => ⟨r, i, h⟩) ih

theorem mem_declareFields {m : Module} {fields : List Field}
    (h : item ∈ (r.declareFields m fields).1) : ∃ r f, item ∈ (Registry.declareField r m f).1 := by
  induction fields generalizing r with
  | nil => cases h
  | cons f rest ih => exact (List.mem_append.1 h).elim (fun h => ⟨r, f, h⟩) ih

theorem isPlain_declareImport {i : Import} (h : item ∈ (r.declareImport i).1) :
    item.isPlain = true := by
  unfold declareImport at h
  split at h
  · simp only at h
    split at h
    · exact List.mem_singleton.1 h ▸ rfl
    · cases h
  all_goals exact List.mem_singleton.1 h ▸ rfl

end Registry

theorem isPlain_moduleExports (env : Env) (m : Module) :
    ∀ item ∈ moduleExports env m, item.isPlain = true := by
  unfold moduleExports
  simp only [List.forall_mem_append, List.forall_mem_map]
  refine ⟨⟨fun name _ => ?_, fun e _ => ?_⟩, ?_⟩
  · unfold whitelistItem
    split <;> rfl
  · unfold exportItem
    split <;> rfl
  · cases m.start? with
    | none => nofun
    | some index =>
      change ∀ item ∈ startItems _ index, _
      unfold startItems
      split
      · exact List.forall_mem_singleton.2 rfl
      · simp only
        split <;> simp [Item.isPlain]

theorem Env.Covers.isPlain {env : Env} {codes : List (List Instr)} {items : List Item}
    (h : env.Covers codes items) : ∀ item ∈ items, item.isPlain = true := by
  intro item hitem
  obtain ⟨code, -, hi⟩ | hm := h.item item hitem
  · cases hi
    rfl
  · cases hm <;> rfl

section

variable {α : Type} {pick : Item → Option α}

theorem filterMap_flatten {β : Type} {R : β → List Item → Prop} {picked : β → List α} {ps : List β}
    {parts : List (List Item)} (h : List.Forall₂ R ps parts)
    (hone : ∀ p ∈ ps, ∀ items, R p items → items.filterMap pick = picked p) :
    parts.flatten.filterMap pick = ps.flatMap picked := by
  induction h with
  | nil => rfl
  | cons hfirst _ ih =>
    rw [List.forall_mem_cons] at hone
    rw [List.flatten_cons, List.filterMap_append, hone.1 _ hfirst, ih hone.2, List.flatMap_cons]

variable (hpick : ∀ item, item.isPlain = true → pick item = none)
include hpick

theorem filterMap_plain {items : List Item} (h : ∀ item ∈ items, item.isPlain = true) :
    items.filterMap pick = [] :=
  List.filterMap_eq_nil_iff.2 fun item hitem => hpick item (h item hitem)

theorem filterMap_declareFields (r : Registry) (m : Module) (fields : List Field) :
    (r.declareFields m fields).1.filterMap pick =
      (fields.filterMap Field.unsupported?).filterMap fun d => pick (.warning (.unsupported d)) := by
  induction fields generalizing r with
  | nil => rfl
  | cons f rest ih =>
    have hone : (r.declareField m f).1.filterMap pick =
        f.unsupported?.toList.filterMap fun d => pick (.warning (.unsupported d)) := by
      cases f with
      | memory | table => exact filterMap_plain hpick (List.forall_mem_singleton.2 rfl)
      | _ => rfl
    change ((r.declareField m f).1 ++ _).filterMap _ = _
    rw [List.filterMap_append, hone, ih, ← List.filterMap_append]
    cases f <;> rfl

theorem filterMap_ofModule (m : Module) : (Registry.ofModule m).1.filterMap pick =
    m.unsupportedFields.filterMap fun d => pick (.warning (.unsupported d)) := by
  have himports (r : Registry) (imports : List Import) :
      (r.declareImports imports).1.filterMap pick = [] := by
    refine filterMap_plain hpick fun item hitem => ?_
    obtain ⟨r, i, hone⟩ := Registry.mem_declareImports hitem
    exact Registry.isPlain_declareImport hone
  unfold Registry.ofModule
  simp only
  rw [List.filterMap_append, himports, filterMap_declareFields hpick, List.nil_append]
  rfl

/-- What is picked out of a chunk comes from the comments on unsupported fields and from the
functions, if nothing is picked out of plain items. -/
theorem filterMap_items {options : Options} {m : Module} {chunk : Chunk}
    (h : (lowerModule options m).outcome.1 = .ok chunk) {picked : Function × Nat → List α}
    (hfunctions : ∀ p ∈ m.indexed, ∀ items, (m.env options).Defines m p items →
      items.filterMap pick = picked p) :
    chunk.items.filterMap pick =
      m.unsupportedFields.filterMap (fun d => pick (.warning (.unsupported d))) ++
        m.indexed.flatMap picked := by
  obtain ⟨-, parts, initial, hitems, hparts, hinitial, -⟩ := items_lowerModule h
  rw [hitems]
  simp only [List.filterMap_append, filterMap_ofModule hpick, filterMap_flatten hparts hfunctions,
    filterMap_plain hpick hinitial.isPlain, filterMap_plain hpick (isPlain_moduleExports _ m),
    List.append_nil]

end

end Moonstack
