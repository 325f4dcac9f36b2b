import Moonstack.Proofs.Chunk.Failures
import Moonstack.Proofs.Chunk.Rows
import Moonstack.Proofs.Emission.Balance

/-!
# Comments

Names of a module reach its chunk quoted, as identifiers, or pasted into comments as they are.
`Module.pasted` lists those that are pasted: descriptions of unsupported fields, names of a
whitelist that no function is found for, names of exports that point nowhere, and names of
unsupported instructions in code that is written.

A comment ends where the line ends. So the lines of the region of a module are the rows that were
written, with a row for each line of code, for each name of the whitelist and for each export, if no
pasted name holds a line break, and only then (`linesOf_region_iff`).
-/

namespace Moonstack

open Logged

variable {item : Item} {r : Registry} {value : Expr} {items : List Item}

/-! ## Texts on one line -/

theorem oneLine_append {s t : String} : OneLine (s ++ t) ↔ OneLine s ∧ OneLine t := by
  unfold OneLine
  rw [String.toList_append, List.forall_mem_append]

theorem oneLine_rowAt {n : Nat} {t : String} : OneLine (rowAt n t) ↔ OneLine t := by
  have hblank : OneLine (indentation n) := Scan.not_isBreak_of_run (Line.run_indentation n [])
  unfold rowAt
  split
  · rename_i h
    rw [String.isEmpty_iff] at h
    rw [h]
  · rw [oneLine_append, and_iff_right hblank]

/-! ## Code -/

namespace Emit

variable {env : Env}

/-- An unsupported instruction is written as a comment with its name. -/
theorem warned_walk : Instr.Walk
    (fun i => i.hasWide env.options.branchTableLimit = false →
      ∀ {f g lines}, Writes (instr env i) f () g lines →
        ∀ name ∈ i.unsupportedNames, warned (.unsupported name) ∈ lines)
    (fun code => Instr.bodyHasWide env.options.branchTableLimit code = false →
      ∀ {f g lines}, Writes (body env code) f () g lines →
        ∀ name ∈ Instr.bodyUnsupportedNames code, warned (.unsupported name) ∈ lines) where
  leaf offset o _ f g lines hw name hname := by
    cases o with
    | unsupported name' =>
      obtain rfl := List.mem_singleton.1 hname
      have hop : Writes (op env offset (.unsupported name)) f.begun () _ _ := writes_perform _ _
      obtain ⟨-, -, rfl⟩ := hw.unique (writes_leaf hop)
      simp
    | _ => cases hname
  encloses {i _ _ inner} h hinner hwide f g lines hw name hname := by
    have hnames : i.unsupportedNames = Instr.bodyUnsupportedNames inner := by cases h <;> rfl
    rw [h.hasWide_eq] at hwide
    obtain ⟨b, g', code, -, hi, -, rfl⟩ := written_encloses h hwide hw
    have hmem := hinner hwide hi.keeps.writes name (hnames ▸ hname)
    simp [hmem]
  ifElse offset result inner other hinner hother hwide f g lines hw name hname := by
    rw [Instr.hasWide, Bool.or_eq_false_iff] at hwide
    obtain ⟨b, g₁, code₁, g₂, code₂, -, hi, ho, -, rfl⟩ := written_ifElse hwide.1 hwide.2 hw
    rw [Instr.unsupportedNames, List.mem_append] at hname
    obtain hname | hname := hname
    · have hmem := hinner hwide.1 hi.keeps.writes name hname
      simp [hmem]
    · have hmem := hother hwide.2 ho.keeps.writes name hname
      simp [hmem]
  nil _ _ _ _ _ _ hname := by cases hname
  cons {i rest} hhead hrest hwide f g lines hw name hname := by
    obtain ⟨h, code, more, hi, hr, rfl⟩ := written_cons hwide hw
    rw [Instr.bodyHasWide, Bool.or_eq_false_iff] at hwide
    rw [Instr.bodyUnsupportedNames, List.mem_append] at hname
    obtain hname | hname := hname
    · exact List.mem_append_left _ (hhead hwide.1 hi.writes name hname)
    · exact List.mem_append_right _ (hrest hwide.2 hr.writes name hname)

end Emit

open Emit

section

variable {env : Env} {id name : String} {function : Function} {code : List Instr}
  {lowered : Lowered}

theorem emitted_lowerInitializer (h : (lowerInitializer env id code).outcome.1 = .ok lowered) :
    ∃ value e, initializer env code { frame := startFrame env id none [] code } = .ok value e ∧
      lowered.header = header e.frame ∧ lowered.lines = e.lines.toList ∧
      lowered.value = some value ∧ lowered.params = [] ∧
      lowered.declared = declaredSlots e.frame := by
  rw [(yields_initializer env id code).outcome] at h
  obtain ⟨_, -, h⟩ := ok_of_except h
  obtain ⟨r, hr, h⟩ := ok_of_except h
  cases h
  exact ⟨r.1, r.2, ok_of_result hr, rfl, rfl, rfl, rfl, rfl⟩

theorem holds_initializer {d : Discipline} (hd : d.Full) (henv : d.ok → env.registry.Tidy) (n : Nat)
    (hnames : d.ok → ∀ name ∈ Instr.bodyUnsupportedNames code, OneLine name) :
    d.Holds n (initializer env code) n (fun value => d.ok → value.Proper) :=
  (holds_body hd henv code n hnames).bind fun _ _ => holds_pop.bind fun _ hvalue =>
    holds_recordLocals.bind fun _ _ => holds_pure hvalue

theorem passes_initializer (henv : env.registry.Tidy)
    (hnames : ∀ name ∈ Instr.bodyUnsupportedNames code, OneLine name) {value : Operand}
    {e : Emission}
    (he : initializer env code { frame := startFrame env id none [] code } = .ok value e) :
    Rule.texts.Holds 0 e ∧ value.Proper := by
  have hstart : Rule.texts.Holds 0 { frame := startFrame env id none [] code } := by
    refine ⟨rfl, ⟨?_, ?_⟩, by simp [Emission.code]⟩ <;> simp [startFrame, Frame.start]
  obtain ⟨hend, hvalue⟩ := holds_initializer Rule.wide_texts.full (fun _ => henv) 0
    (fun _ => hnames) _ _ _ hstart he
  exact ⟨hend, hvalue trivial⟩

/-- A line with the comment on an unsupported instruction shows its name as it is. -/
theorem oneLine_of_warned {p : Placed} (h : OneLine p.row)
    (hp : p.line = warned (.unsupported name)) : OneLine name := by
  have hrow : p.row = indentation p.indent ++ ("-- " ++ ("WARNING: " ++
      ("unsupported instruction " ++ name))) := by
    rw [Placed.row, hp]
    rfl
  rw [hrow] at h
  simp only [oneLine_append] at h
  exact h.2.2.2.2

theorem oneLine_of_rows {lines : List Placed} (h : ∀ p ∈ lines, OneLine p.row)
    (hmem : warned (.unsupported name) ∈ lines.map Placed.line) : OneLine name := by
  obtain ⟨p, hp, hline⟩ := List.mem_map.1 hmem
  exact oneLine_of_warned (h p hp) hline

/-- The rows of a function are lines exactly if the names of its unsupported instructions are. -/
theorem oneLine_rows_lowerFunction (henv : env.registry.Tidy)
    (h : (lowerFunction env id name function).outcome.1 = .ok lowered) :
    (∀ row ∈ lowered.rows, OneLine row) ↔
      ∀ name ∈ Instr.bodyUnsupportedNames function.body, OneLine name := by
  rw [Lowered.rows, List.forall_mem_map]
  constructor
  · intro hrows name hname
    obtain ⟨_, f, g, lines, -, hover, -, hw, hlines, -, -⟩ := written_lowerFunction h
    rw [Options.oversized, Bool.or_eq_false_iff] at hover
    refine oneLine_of_rows (fun p hp => hrows p (List.mem_append_right _ hp)) ?_
    rw [hlines]
    exact List.mem_append_left _ (warned_walk.body _ hover.2 hw name hname)
  · intro hnames p hp
    exact (clear_lowerFunction henv hnames h p hp).oneLine p.indent

/-- The same for an initializer. -/
theorem oneLine_rows_lowerInitializer (henv : env.registry.Tidy)
    (h : (lowerInitializer env id code).outcome.1 = .ok lowered) :
    (∀ row ∈ lowered.rows, OneLine row) ↔
      ∀ name ∈ Instr.bodyUnsupportedNames code, OneLine name := by
  obtain ⟨value, e, he, hheader, hlines, -⟩ := emitted_lowerInitializer h
  rw [Lowered.rows, List.forall_mem_map, hheader, hlines]
  constructor
  · intro hrows name hname
    refine oneLine_of_rows (fun p hp => hrows p (List.mem_append_right _ hp)) ?_
    cases hwide : Instr.bodyHasWide env.options.branchTableLimit code with
    | true =>
      obtain ⟨count, hfails⟩ := fails_walk.body code hwide (startFrame env id none [] code)
      obtain ⟨e', he'⟩ := hfails.bind (k := fun _ => do
        let value ← pop
        change recordLocals
        return value) { frame := startFrame env id none [] code } rfl
      cases he.symm.trans he'
    | false =>
      obtain ⟨_, g, lines, hb⟩ := succeeds_body hwide (startFrame env id none [] code)
      have hall : Writes (initializer env code) (startFrame env id none [] code) g.top
          (recordLocals g.popped) (lines ++ []) :=
        hb.writes.bind ((writes_pop g).silent ((writes_change _ _).silent (.pure _ _)))
      obtain ⟨e', he', -, hcode⟩ := hall { frame := startFrame env id none [] code } rfl
      cases he.symm.trans he'
      change _ ∈ e.code
      rw [hcode, List.append_nil]
      exact List.mem_append_right _ (warned_walk.body code hwide hb.writes name hname)
  · intro hnames p hp
    obtain ⟨hend, -⟩ := passes_initializer henv hnames he
    obtain hp | hp := List.mem_append.1 hp
    · exact (Line.clear_header _ p hp).oneLine p.indent
    · exact (hend.keeps.2 _ (List.mem_map_of_mem hp)).oneLine p.indent

end

/-! ## Items -/

/-- All rows of an item are lines. -/
def Item.Unbroken (item : Item) : Prop := ∀ r ∈ item.rows Lowered.rows, OneLine r.2

theorem unbroken_one {text : String} (h : item.rows Lowered.rows = [(0, text)]) :
    item.Unbroken ↔ OneLine text := by
  rw [Item.Unbroken, h, List.forall_mem_singleton]

theorem forall_inset {rows : List (Nat × String)} :
    (∀ r ∈ inset rows, OneLine r.2) ↔ ∀ r ∈ rows, OneLine r.2 := by
  rw [inset, List.forall_mem_map]

/-- Rows between a first and a last one. -/
theorem forall_of_framed {first last : Nat × String} {rows : List (Nat × String)}
    (h : ∀ r ∈ first :: inset rows ++ [last], OneLine r.2) : ∀ r ∈ rows, OneLine r.2 :=
  forall_inset.1 (List.forall_mem_cons.1 (List.forall_mem_append.1 h).1).2

theorem forall_framed {first last : String} {rows : List (Nat × String)} (hf : OneLine first)
    (hl : OneLine last) : (∀ r ∈ (0, first) :: inset rows ++ [(0, last)], OneLine r.2) ↔
      ∀ r ∈ rows, OneLine r.2 :=
  ⟨forall_of_framed, fun h => List.forall_mem_append.2
    ⟨List.forall_mem_cons.2 ⟨hf, forall_inset.2 h⟩, List.forall_mem_singleton.2 hl⟩⟩

/-- Does the anomaly show a name as it is? -/
def Anomaly.pasted? : Anomaly → Option String
  | unsupported description => some description
  | whitelisted name => some name
  | exportTarget name _ _ => some name
  | _ => none

theorem unbroken_warning_pasted {a : Anomaly} {name : String} (h : a.pasted? = some name) :
    (Item.warning a).Unbroken ↔ OneLine name := by
  have hmark : OneLine "-- WARNING: " := .ofList (by decide)
  rw [unbroken_one rfl]
  change OneLine ("-- WARNING: " ++ a.message) ↔ _
  rw [oneLine_append, and_iff_right hmark]
  cases a with
  | unsupported description =>
    cases h
    change OneLine ("unsupported " ++ name) ↔ _
    rw [oneLine_append, and_iff_right (OneLine.ofList (by decide))]
  | whitelisted other =>
    cases h
    change OneLine ("whitelisted function " ++ name ++ " not found") ↔ _
    rw [oneLine_append, oneLine_append, and_iff_right (OneLine.ofList (by decide)),
      and_iff_left (OneLine.ofList (by decide))]
  | exportTarget other kind index =>
    cases h
    change OneLine ("export " ++ name ++ " refers to missing " ++ kind.word ++ " " ++
      toString index) ↔ _
    have hkind : OneLine kind.word := by cases kind <;> exact .ofList (by decide)
    have hwords : OneLine "export " ∧ OneLine " refers to missing " ∧ OneLine " " :=
      ⟨.ofList (by decide), .ofList (by decide), .ofList (by decide)⟩
    simp only [oneLine_append, hwords, hkind, oneLine_toString, true_and, and_true]
  | _ => cases h

/-- An anomaly that shows no name as it is. The expressions and identifiers in it are neutral. -/
inductive Anomaly.Plain : Anomaly → Prop
  | importType {source : Expr} (h : source.Tidy) (type : Nat) : Plain (.importType source type)
  | elementTable (index : Nat) : Plain (.elementTable index)
  | elementFunction (index : Nat) : Plain (.elementFunction index)
  | dataMemory (index : Nat) : Plain (.dataMemory index)
  | start (index : Nat) : Plain (.start index)
  | startParameters {id : String} (h : Neutral id) : Plain (.startParameters id)

theorem unbroken_warning_plain {a : Anomaly} (h : a.Plain) : (Item.warning a).Unbroken := by
  rw [unbroken_one rfl]
  refine OneLine.append (s := "-- WARNING: ") (.ofList (by decide)) ?_
  cases h with
  | importType h type =>
    exact ((OneLine.append (.ofList (by decide)) (Expr.neutral_text _ h).oneLine).append
      (.ofList (by decide))).append (oneLine_toString type)
  | elementTable index | elementFunction index | dataMemory index =>
    exact OneLine.append (.ofList (by decide)) (oneLine_toString index)
  | start index =>
    exact (OneLine.append (.ofList (by decide)) (oneLine_toString index)).append
      (.ofList (by decide))
  | startParameters h =>
    exact (OneLine.append (.ofList (by decide)) h.oneLine).append (.ofList (by decide))

/-! ### Declarations -/

/-- The description of the unsupported field that an item comments on. -/
def Item.unsupported? : Item → Option String
  | warning (.unsupported description) => some description
  | _ => none

theorem Item.eq_of_unsupported {description : String} (h : item.unsupported? = some description) :
    item = .warning (.unsupported description) := by
  unfold unsupported? at h
  split at h
  · cases h
    rfl
  · cases h

theorem Item.unsupported_of_isPlain (item : Item) (h : item.isPlain = true) :
    item.unsupported? = none := by
  cases item with
  | warning a =>
    cases a with
    | unsupported => cases h
    | _ => rfl
  | _ => rfl

theorem oneLine_tableHandle (n : Nat) :
    OneLine (tableHandle n).functions ∧ OneLine (tableHandle n).offset := by
  constructor <;>
    exact (OneLine.append (.ofList (by decide)) (oneLine_toString n)).append (.ofList (by decide))

theorem oneLine_assign {place : String} (hp : OneLine place) (h : value.Tidy) :
    OneLine (place ++ " = " ++ value.text) :=
  (hp.append (.ofList (by decide))).append (Expr.neutral_text _ h).oneLine

theorem unbroken_memory (n : Nat) (h : value.Tidy) :
    (Item.memory (memoryHandle n) value).Unbroken := by
  have hhandle : Neutral (memoryHandle n) := tidy_memoryHandle n
  rw [unbroken_one rfl]
  exact oneLine_assign (OneLine.append (.ofList (by decide)) hhandle.oneLine) h

theorem unbroken_table (n : Nat) (h : value.Tidy) :
    (Item.table (tableHandle n) value).Unbroken := by
  obtain ⟨hfunctions, hoffset⟩ := oneLine_tableHandle n
  rw [unbroken_one rfl]
  refine (oneLine_assign ?_ h).append (.ofList (by decide))
  exact ((OneLine.append (.ofList (by decide)) hfunctions).append (.ofList (by decide))).append
    hoffset

theorem unbroken_global (slot : Nat) (h : value.Tidy) : (Item.global slot value).Unbroken := by
  rw [unbroken_one rfl]
  exact oneLine_assign (Expr.neutral_text _ (tidy_globalPlace slot)).oneLine h

theorem tidy_place (i : Import) : i.place.Tidy :=
  Expr.tidy_member (Expr.tidy_member (Expr.tidy_helper _) _) _

theorem unbroken_declareImport (r : Registry) (i : Import) (hitem : item ∈ (r.declareImport i).1) :
    item.Unbroken := by
  unfold Registry.declareImport at hitem
  split at hitem
  · simp only at hitem
    split at hitem
    · rw [List.mem_singleton.1 hitem]
      exact unbroken_warning_plain (.importType (tidy_place i) _)
    · cases hitem
  all_goals rw [List.mem_singleton.1 hitem]
  · exact unbroken_memory _ (tidy_place i)
  · exact unbroken_table _ (tidy_place i)
  · exact unbroken_global _ (tidy_place i)

theorem tidyAll_args (l : Limits) : Expr.TidyAll l.args := by
  refine ⟨trivial, ?_, trivial⟩
  cases l.maximum with
  | none => exact Expr.tidy_operand (o := .literal .nil) trivial
  | some n => trivial

/-- What is declared for a field is a line, or the comment on an unsupported field. -/
theorem unbroken_declareField (r : Registry) (m : Module) (f : Field)
    (hitem : item ∈ (r.declareField m f).1) (hu : item.unsupported? = none) : item.Unbroken := by
  cases f with
  | unsupported description =>
    rw [List.mem_singleton.1 hitem] at hu
    cases hu
  | memory limits =>
    rw [List.mem_singleton.1 hitem]
    exact unbroken_memory _ ((Expr.tidy_callHelper _ _).2 (tidyAll_args limits))
  | table limits =>
    have hempty : (Expr.table []).Tidy := trivial
    rw [List.mem_singleton.1 hitem]
    exact unbroken_table _ hempty
  | imported | function | global | exported | start | element | data => cases hitem

/-- There is one comment for each unsupported field. -/
theorem unsupported_ofModule (m : Module) :
    (Registry.ofModule m).1.filterMap Item.unsupported? = m.unsupportedFields := by
  rw [filterMap_ofModule Item.unsupported_of_isPlain]
  exact List.filterMap_some

/-- Declarations are lines exactly if the descriptions of the unsupported fields are. -/
theorem unbroken_ofModule_iff (m : Module) : (∀ item ∈ (Registry.ofModule m).1, item.Unbroken) ↔
    ∀ description ∈ m.unsupportedFields, OneLine description := by
  rw [← unsupported_ofModule]
  constructor
  · intro h description hd
    obtain ⟨item, hitem, hsome⟩ := List.mem_filterMap.1 hd
    have hone := h item hitem
    rw [Item.eq_of_unsupported hsome] at hone
    exact (unbroken_warning_pasted rfl).1 hone
  · intro h item hitem
    cases hu : item.unsupported? with
    | some description =>
      rw [Item.eq_of_unsupported hu]
      exact (unbroken_warning_pasted rfl).2 (h description (List.mem_filterMap.2 ⟨item, hitem, hu⟩))
    | none =>
      obtain hitem | hitem := List.mem_append.1 (show item ∈ _ ++ _ from hitem)
      · obtain ⟨r, i, hone⟩ := Registry.mem_declareImports hitem
        exact unbroken_declareImport r i hone
      · obtain ⟨r, f, hone⟩ := Registry.mem_declareFields hitem
        exact unbroken_declareField r m f hone hu

/-! ### Functions -/

theorem unbroken_define_iff {d : Definition} (hname : Neutral d.name)
    (hparams : ∀ s ∈ d.params, Neutral s) :
    (Item.define d).Unbroken ↔ ∀ r ∈ d.bodyRows Lowered.rows, OneLine r.2 := by
  have hhead : OneLine ("function " ++ d.name ++ "(" ++ ", ".intercalate d.params ++ ")") :=
    (((OneLine.append (.ofList (by decide)) hname.oneLine).append (.ofList (by decide))).append
      (neutral_intercalate hparams).oneLine).append (.ofList (by decide))
  exact forall_framed hhead (.ofList (by decide))

theorem neutral_resultNames (count : Nat) : ∀ s ∈ Definition.resultNames count, Neutral s := by
  intro s hs
  obtain ⟨n, -, rfl⟩ := List.mem_map.1 hs
  have hstem : Neutral "ret" := .ofList (by decide)
  exact hstem.append (firm_toString n).neutral

theorem oneLine_trampolineRows {inner : String} {params : List String} (hinner : Neutral inner)
    (hparams : ∀ s ∈ params, Neutral s) (resultCount : Nat) :
    ∀ r ∈ Definition.trampolineRows inner params resultCount, OneLine r.2 := by
  have hargs : ∀ s ∈ ["setjmp_state", "setjmp_frame"] ++ params, Neutral s := by
    refine List.forall_mem_append.2 ⟨?_, hparams⟩
    refine List.forall_mem_cons.2 ⟨.ofList (by decide), ?_⟩
    exact List.forall_mem_singleton.2 (.ofList (by decide))
  have hresults (n : Nat) : OneLine (", ".intercalate (Definition.resultNames n)) :=
    (neutral_intercalate (neutral_resultNames n)).oneLine
  have hcall : OneLine ("local ok, " ++ ", ".intercalate (Definition.resultNames (max resultCount 1)) ++
      " = pcall(" ++ inner ++ ", " ++
      ", ".intercalate (["setjmp_state", "setjmp_frame"] ++ params) ++ ")") := by
    simp only [oneLine_append]
    exact ⟨⟨⟨⟨⟨⟨.ofList (by decide), hresults _⟩, .ofList (by decide)⟩,
      hinner.oneLine⟩, .ofList (by decide)⟩, (neutral_intercalate hargs).oneLine⟩,
      .ofList (by decide)⟩
  have hreturn : OneLine (if resultCount = 0 then "return"
      else "return " ++ ", ".intercalate (Definition.resultNames resultCount)) := by
    split
    · exact .ofList (by decide)
    · exact OneLine.append (.ofList (by decide)) (hresults _)
  unfold Definition.trampolineRows
  simp only [List.forall_mem_cons, List.not_mem_nil, false_implies, implies_true, and_true]
  exact ⟨.ofList (by decide), .ofList (by decide), hcall, .ofList (by decide),
    .ofList (by decide), .ofList (by decide), .ofList (by decide),
    .ofList (by decide), .ofList (by decide), .ofList (by decide), hreturn⟩

theorem neutral_stubParams (entry : FunctionEntry) : ∀ s ∈ entry.stubParams, Neutral s := by
  intro s hs
  obtain ⟨n, -, rfl⟩ := List.mem_map.1 hs
  exact (firm_slotName n).neutral

theorem unbroken_stub {entry : FunctionEntry} {statement : String} (hid : Neutral entry.id)
    (hs : Neutral statement) : (entry.stub statement).Unbroken :=
  (unbroken_define_iff hid (neutral_stubParams entry)).2 (List.forall_mem_singleton.2 hs.oneLine)

theorem neutral_boundNames (f : Frame) (indices : List Nat) :
    ∀ s ∈ f.boundNames indices, Neutral s := by
  induction indices generalizing f with
  | nil => nofun
  | cons index rest ih => exact List.forall_mem_cons.2 ⟨(firm_slotName _).neutral, ih _⟩

theorem neutral_resumableName {id : String} (h : Neutral id) : Neutral (resumableName id) :=
  h.append (.ofList (by decide))

/-- The definitions of a function are lines exactly if the rows of its code are. -/
theorem unbroken_definitions_iff {entry : FunctionEntry} {lowered : Lowered}
    (hid : Neutral entry.id) (hparams : ∀ s ∈ lowered.params, Neutral s) :
    (∀ item ∈ entry.definitions lowered, item.Unbroken) ↔ ∀ row ∈ lowered.rows, OneLine row := by
  have hcode (name : String) (params : List String) (hname : Neutral name)
      (hp : ∀ s ∈ params, Neutral s) :
      (Item.define ⟨name, params, .code lowered⟩).Unbroken ↔ ∀ row ∈ lowered.rows, OneLine row := by
    rw [unbroken_define_iff hname hp]
    exact List.forall_mem_map
  unfold FunctionEntry.definitions
  split
  · have hjump : ∀ s ∈ jumpRecord :: jumpFrame :: lowered.params, Neutral s :=
      List.forall_mem_cons.2 ⟨.ofList (by decide),
        List.forall_mem_cons.2 ⟨.ofList (by decide), hparams⟩⟩
    have htrampoline : (Item.define ⟨entry.id, lowered.params,
        .trampoline (resumableName entry.id) lowered.resultCount⟩).Unbroken :=
      (unbroken_define_iff hid hparams).2
        (oneLine_trampolineRows (neutral_resumableName hid) hparams _)
    simp only
    rw [List.forall_mem_cons, List.forall_mem_singleton, and_iff_left htrampoline,
      hcode _ _ (neutral_resumableName hid) hjump]
  · rw [List.forall_mem_singleton, hcode _ _ hid hparams]

section

variable {options : Options} {m : Module}

/-- The names of unsupported instructions in the code that is written for a function. -/
def Module.writtenNames (m : Module) (options : Options) (p : Function × Nat) : List String :=
  if m.prunes options p || options.oversized p.1.body then []
  else Instr.bodyUnsupportedNames p.1.body

/-- What a function becomes is lines exactly if the names that are written for it are. -/
theorem unbroken_defines_iff {p : Function × Nat} (hp : p ∈ m.indexed)
    (h : (m.env options).Defines m p items) : (∀ item ∈ items, item.Unbroken) ↔
      ∀ name ∈ m.writtenNames options p, OneLine name := by
  have htidy := Registry.tidy_ofModule m
  obtain ⟨entry, hentry, hname, -⟩ := (Registry.describes_ofModule m).defined p hp
  have hentry' : (m.env options).registry.function? p.2 = some entry := hentry
  have hid : Neutral entry.id := htidy _ _ hentry
  have hpruned : isPruned m (m.env options).options.whitelist p.2 entry = m.prunes options p :=
    isPruned_eq hname
  unfold Module.writtenNames
  cases h with
  | pruned hentry₁ hprune =>
    cases hentry'.symm.trans hentry₁
    rw [← hpruned, hprune, List.forall_mem_singleton]
    have hprint : (Expr.call (.name "print") [.string s!"!!! PRUNED: {entry.id}"]).Tidy :=
      ⟨.ofList (by decide), trivial, trivial⟩
    exact iff_of_true (unbroken_stub hid (Expr.neutral_text _ hprint)) nofun
  | @rejected _ e r hentry₁ hprune he hr =>
    cases hentry'.symm.trans hentry₁
    have hover : options.oversized p.1.body = true := oversized_of_rejected he hr
    rw [hover, Bool.or_true, List.forall_mem_singleton]
    have hstop : (Stmt.run (.error s!"FUNCTION REJECTED: {r.reason}")).Tidy := Expr.tidy_error _
    exact iff_of_true (unbroken_stub hid (Stmt.neutral_text hstop)) nofun
  | @written _ lowered hentry₁ hprune hl =>
    cases hentry'.symm.trans hentry₁
    obtain ⟨_, f, _, _, -, hover, -, -, -, hparams, -⟩ := written_lowerFunction hl
    have hover' : options.oversized p.1.body = false := hover
    have hneutral : ∀ s ∈ lowered.params, Neutral s := by
      rw [hparams]
      exact neutral_boundNames _ _
    rw [← hpruned, hprune, hover', unbroken_definitions_iff hid hneutral,
      oneLine_rows_lowerFunction htidy hl]
    rfl

/-! ### Initializers -/

theorem tidy_elementExpr (h : r.Tidy) (index : Option Nat) : (elementExpr r index).Tidy := by
  unfold elementExpr
  split
  · rename_i entry hentry
    obtain ⟨n, -, hn⟩ := Option.bind_eq_some_iff.1 hentry
    exact h n entry hn
  · exact .ofList (by decide)

theorem neutral_statement {env : Env} (henv : env.registry.Tidy) {use : InitialUse}
    (hu : env.Uses use) (hv : value.Tidy) : Neutral (use.statement value) := by
  cases hu with
  | global slot =>
    have hequals : Neutral " = " := .ofList (by decide)
    exact ((Expr.neutral_text _ (tidy_globalPlace slot)).append hequals).append
      (Expr.neutral_text _ hv)
  | elements h functions =>
    obtain ⟨hfunctions, hoffset⟩ := tidy_table? h
    have hentries : Expr.TidyAll (functions.map (elementExpr env.registry)) :=
      (Expr.tidyAll_iff _).2 (List.forall_mem_map.2 fun index _ => tidy_elementExpr henv index)
    exact Expr.neutral_text _ ((Expr.tidy_callHelper _ _).2
      ⟨hfunctions, ⟨hoffset, hv⟩, hentries, trivial⟩)
  | data h bytes =>
    exact Expr.neutral_text _ ((Expr.tidy_callHelper _ _).2 ⟨tidy_memory? h, hv, trivial, trivial⟩)

/-- An initializer is lines exactly if the names of its unsupported instructions are. -/
theorem unbroken_initializes_iff {env : Env} (henv : env.registry.Tidy) {code : List Instr}
    (h : env.Initializes code item) : item.Unbroken ↔
      ∀ name ∈ Instr.bodyUnsupportedNames code, OneLine name := by
  obtain @⟨use, lowered, hu, hl⟩ := h
  have hrows : (Item.initial lowered use).Unbroken ↔ (∀ row ∈ lowered.rows, OneLine row) ∧
      OneLine (use.statement (Item.initialValue lowered)) := by
    refine (forall_framed (.ofList (by decide)) (.ofList (by decide))).trans ?_
    rw [List.forall_mem_append, List.forall_mem_map, List.forall_mem_singleton]
  rw [hrows, oneLine_rows_lowerInitializer henv hl, and_iff_left_iff_imp]
  intro hnames
  obtain ⟨value, e, he, -, -, hvalue, -, -⟩ := emitted_lowerInitializer hl
  obtain ⟨-, hproper⟩ := passes_initializer henv hnames he
  refine (neutral_statement henv hu ?_).oneLine
  rw [Item.initialValue, hvalue]
  exact Expr.tidy_operand hproper

theorem unbroken_of_misses (h : item.Misses) : item.Unbroken := by
  cases h with
  | elementTable index => exact unbroken_warning_plain (.elementTable index)
  | elementFunction index => exact unbroken_warning_plain (.elementFunction index)
  | dataMemory index => exact unbroken_warning_plain (.dataMemory index)

theorem unbroken_covers_iff {env : Env} (henv : env.registry.Tidy) {codes : List (List Instr)}
    (h : env.Covers codes items) : (∀ item ∈ items, item.Unbroken) ↔
      ∀ name ∈ codes.flatMap Instr.bodyUnsupportedNames, OneLine name := by
  constructor
  · intro hitems name hname
    obtain ⟨code, hcode, hname⟩ := List.mem_flatMap.1 hname
    obtain ⟨item, hitem, hi⟩ := h.code code hcode
    exact (unbroken_initializes_iff henv hi).1 (hitems item hitem) name hname
  · intro hnames item hitem
    obtain ⟨code, hcode, hi⟩ | hm := h.item item hitem
    · exact (unbroken_initializes_iff henv hi).2 fun name hname =>
        hnames name (List.mem_flatMap.2 ⟨code, hcode, hname⟩)
    · exact unbroken_of_misses hm

/-! ### Bindings and the call at start -/

/-- The names of the whitelist that no function is found for. -/
def Module.unfound (m : Module) (options : Options) : List String :=
  (options.whitelist.getD []).filter fun name =>
    ((Registry.ofModule m).2.whitelisted? m name).isNone

/-- The names of the exports that point nowhere. -/
def Module.dangling (m : Module) : List String :=
  (m.exports.filter fun e => ((Registry.ofModule m).2.exportTarget? e).isNone).map Export.name

theorem unbroken_binding (name : String) {target : Expr} (h : target.Tidy) :
    (Item.binding name target).Unbroken := by
  have hplace : (Expr.index (.helper .exports) (.string name)).Tidy :=
    ⟨Expr.tidy_helper _, trivial⟩
  rw [unbroken_one rfl]
  exact oneLine_assign (Expr.neutral_text _ hplace).oneLine h

theorem tidy_exportTarget? (hr : r.Tidy) {e : Export} {target : Expr}
    (h : r.exportTarget? e = some target) : target.Tidy := by
  unfold Registry.exportTarget? at h
  split at h <;> obtain ⟨found, hfound, rfl⟩ := Option.map_eq_some_iff.1 h
  · exact hr _ _ hfound
  · exact tidy_memory? hfound
  · exact (tidy_table? hfound).1
  · exact tidy_globalPlace found

theorem neutral_whitelisted? (hr : r.Tidy) {name : String} {entry : FunctionEntry}
    (h : r.whitelisted? m name = some entry) : Neutral entry.id := by
  unfold Registry.whitelisted? at h
  obtain h | ⟨-, h⟩ := Option.or_eq_some_iff.1 h
  · obtain ⟨n, hn⟩ := List.getElem?_of_mem (List.mem_of_find?_eq_some h)
    refine hr n entry ?_
    rwa [Registry.function?, ← Array.getElem?_toList]
  · obtain ⟨e, -, he⟩ := List.exists_of_findSome?_eq_some h
    split at he
    · exact hr _ _ he
    · cases he

theorem unbroken_whitelistItem_iff (hr : r.Tidy) (name : String) :
    (whitelistItem r m name).Unbroken ↔ ((r.whitelisted? m name).isNone = true → OneLine name) := by
  unfold whitelistItem
  cases h : r.whitelisted? m name with
  | some entry => exact iff_of_true (unbroken_binding name (neutral_whitelisted? hr h)) nofun
  | none =>
    rw [unbroken_warning_pasted rfl]
    exact ⟨fun h _ => h, fun h => h rfl⟩

theorem unbroken_exportItem_iff (hr : r.Tidy) (e : Export) :
    (exportItem r e).Unbroken ↔ ((r.exportTarget? e).isNone = true → OneLine e.name) := by
  unfold exportItem
  cases h : r.exportTarget? e with
  | some target => exact iff_of_true (unbroken_binding _ (tidy_exportTarget? hr h)) nofun
  | none =>
    rw [unbroken_warning_pasted rfl]
    exact ⟨fun h _ => h, fun h => h rfl⟩

theorem unbroken_call {id : String} (h : Neutral id) : (Item.call id).Unbroken := by
  rw [unbroken_one rfl]
  exact h.oneLine.append (.ofList (by decide))

theorem unbroken_startItems (hr : r.Tidy) (index : Nat) :
    ∀ item ∈ startItems r index, item.Unbroken := by
  unfold startItems
  split
  · exact List.forall_mem_singleton.2 (unbroken_warning_plain (.start index))
  · rename_i entry hentry
    have hid := hr _ _ hentry
    simp only
    split
    · exact List.forall_mem_append.2
        ⟨List.forall_mem_singleton.2 (unbroken_warning_plain (.startParameters hid)),
          List.forall_mem_singleton.2 (unbroken_call hid)⟩
    · exact List.forall_mem_append.2 ⟨nofun, List.forall_mem_singleton.2 (unbroken_call hid)⟩

theorem unbroken_moduleExports_iff (options : Options) (m : Module) :
    (∀ item ∈ moduleExports (m.env options) m, item.Unbroken) ↔
      (∀ name ∈ m.unfound options, OneLine name) ∧ ∀ name ∈ m.dangling, OneLine name := by
  have hr := Registry.tidy_ofModule m
  have hstart : ∀ item ∈ m.start?.elim [] (startItems (m.env options).registry), item.Unbroken := by
    cases m.start? with
    | none => nofun
    | some index => exact unbroken_startItems hr index
  unfold moduleExports Module.unfound Module.dangling
  rw [List.forall_mem_append, and_iff_left hstart, List.forall_mem_append, List.forall_mem_map,
    List.forall_mem_map, List.forall_mem_map]
  simp only [List.mem_filter, and_imp]
  refine and_congr ?_ ?_
  · exact forall₂_congr fun name _ => unbroken_whitelistItem_iff hr name
  · exact forall₂_congr fun e _ => unbroken_exportItem_iff hr e

end

/-! ## Chunks -/

/-- The names that are pasted into comments of the chunk of a module as they are. -/
def Module.pasted (m : Module) (options : Options) : List String :=
  m.unsupportedFields ++ m.indexed.flatMap (m.writtenNames options) ++
    m.initialCode.flatMap Instr.bodyUnsupportedNames ++ (m.unfound options ++ m.dangling)

section

variable {options : Options} {m : Module} {chunk : Chunk}

theorem unbroken_flatten_iff {ps : List (Function × Nat)} {parts : List (List Item)}
    (hps : ps ⊆ m.indexed) (h : List.Forall₂ ((m.env options).Defines m) ps parts) :
    (∀ item ∈ parts.flatten, item.Unbroken) ↔
      ∀ name ∈ ps.flatMap (m.writtenNames options), OneLine name := by
  induction h with
  | nil => exact iff_of_true nofun nofun
  | cons hone _ ih =>
    rw [List.cons_subset] at hps
    rw [List.flatten_cons, List.forall_mem_append, List.flatMap_cons, List.forall_mem_append,
      unbroken_defines_iff hps.1 hone, ih hps.2]

theorem unbroken_items_iff (h : (lowerModule options m).outcome.1 = .ok chunk) :
    (∀ item ∈ chunk.items, item.Unbroken) ↔ ∀ name ∈ m.pasted options, OneLine name := by
  obtain ⟨-, parts, initial, hitems, hparts, hinitial, -⟩ := items_lowerModule h
  rw [hitems, Module.pasted]
  simp only [List.forall_mem_append]
  rw [unbroken_ofModule_iff, unbroken_flatten_iff (List.Subset.refl _) hparts,
    unbroken_covers_iff (Registry.tidy_ofModule m) hinitial, unbroken_moduleExports_iff]

theorem oneLine_rows_iff (chunk : Chunk) : (∀ row ∈ chunk.rows Lowered.rows, OneLine row) ↔
    ∀ item ∈ chunk.items, item.Unbroken := by
  have hname := Helper.exports.firm_name.neutral.oneLine
  have hexports : OneLine ("local " ++ Helper.exports.name ++ " = \x7b\x7d") :=
    (OneLine.append (.ofList (by decide)) hname).append (.ofList (by decide))
  have hplace : (Expr.member (.helper .modules) chunk.name).Tidy :=
    Expr.tidy_member (Expr.tidy_helper _) _
  have hkey : OneLine ((Expr.member (.helper .modules) chunk.name).text ++ " = " ++
      Helper.exports.name) :=
    ((Expr.neutral_text _ hplace).oneLine.append (.ofList (by decide))).append hname
  unfold Chunk.rows
  simp only [List.forall_mem_map, oneLine_rowAt, List.forall_mem_append, List.forall_mem_cons,
    forall_inset, List.not_mem_nil, false_implies, implies_true, and_true, List.forall_mem_flatMap]
  exact ⟨fun h item hitem => h.1.2.2.2 item hitem, fun h =>
    ⟨⟨.ofList (by decide), hexports, hkey, h⟩, .ofList (by decide)⟩⟩

/-- The rows of an item that is lines are found in its text. -/
theorem Item.Unbroken.rows_eq (h : item.Unbroken) :
    item.rows (fun f => linesOf f.text) = item.rows Lowered.rows := by
  have hcode {f : Lowered} (hf : ∀ row ∈ f.rows, OneLine row) : linesOf f.text = f.rows :=
    f.linesOf_text fun p hp => hf _ (List.mem_map_of_mem hp)
  cases item with
  | define d =>
    obtain ⟨name, params, body⟩ := d
    cases body with
    | code f =>
      have hrows : ∀ row ∈ f.rows, OneLine row := fun row hrow =>
        forall_of_framed h (0, row) (List.mem_map_of_mem hrow)
      simp only [Item.rows, Definition.rows, Definition.bodyRows, hcode hrows]
    | _ => simp only [Item.rows, Definition.rows, Definition.bodyRows]
  | initial f use =>
    have hrows : ∀ row ∈ f.rows, OneLine row := fun row hrow =>
      forall_of_framed h (0, row) (List.mem_append_left _ (List.mem_map_of_mem hrow))
    simp only [Item.rows, hcode hrows]
  | _ => simp only [Item.rows]

theorem linesOf_region (h : ∀ row ∈ chunk.rows Lowered.rows, OneLine row) :
    linesOf chunk.region = chunk.rows Lowered.rows := by
  have hitems := (oneLine_rows_iff chunk).1 h
  have hflat : chunk.items.flatMap (Item.rows fun f => linesOf f.text) =
      chunk.items.flatMap (Item.rows Lowered.rows) :=
    List.flatMap_congr fun item hitem => (hitems item hitem).rows_eq
  have hrows : (chunk.rows fun f => linesOf f.text) = chunk.rows Lowered.rows := by
    unfold Chunk.rows
    rw [hflat]
  rw [Chunk.region, hrows, linesOf_joinLines h]

/-! ### One row for each name -/

/-- The item is one row, which binds the name or is a comment with the name in it. -/
def Item.Announces (name : String) (item : Item) : Prop :=
  ∃ row, item.rows Lowered.rows = [(0, row)] ∧
    ((∃ target : Expr, OneLine row ∧
        row = (Expr.index (.helper .exports) (.string name)).text ++ " = " ++ target.text) ∨
      ∃ before after, row = "-- WARNING: " ++ (before ++ name ++ after))

theorem announces_binding {name : String} {target : Expr} (h : target.Tidy) :
    (Item.binding name target).Announces name :=
  ⟨_, rfl, .inl ⟨target, (unbroken_one rfl).1 (unbroken_binding name h), rfl⟩⟩

theorem announces_whitelistItem (name : String) :
    (whitelistItem (Registry.ofModule m).2 m name).Announces name := by
  unfold whitelistItem
  cases h : (Registry.ofModule m).2.whitelisted? m name with
  | some entry => exact announces_binding (neutral_whitelisted? (Registry.tidy_ofModule m) h)
  | none => exact ⟨_, rfl, .inr ⟨"whitelisted function ", " not found", rfl⟩⟩

theorem announces_exportItem (e : Export) :
    (exportItem (Registry.ofModule m).2 e).Announces e.name := by
  unfold exportItem
  cases h : (Registry.ofModule m).2.exportTarget? e with
  | some target => exact announces_binding (tidy_exportTarget? (Registry.tidy_ofModule m) h)
  | none =>
    refine ⟨_, rfl, .inr ⟨"export ", " refers to missing " ++ e.kind.word ++ " " ++
      toString e.index, ?_⟩⟩
    change "-- WARNING: " ++ ("export " ++ e.name ++ " refers to missing " ++ e.kind.word ++ " " ++
      toString e.index) = _
    simp only [String.append_assoc]

theorem announces_bindings (options : Options) (m : Module) :
    List.Forall₂ (fun name item => item.Announces name)
      (options.whitelist.getD [] ++ m.exports.map Export.name)
      ((options.whitelist.getD []).map (whitelistItem (Registry.ofModule m).2 m) ++
        m.exports.map (exportItem (Registry.ofModule m).2)) := by
  refine List.rel_append ?_ ?_
  · exact List.forall₂_map_right_iff.2 (List.forall₂_same.2 fun name _ =>
      announces_whitelistItem name)
  · exact List.forall₂_map_left_iff.2 (List.forall₂_map_right_iff.2 (List.forall₂_same.2 fun e _ =>
      announces_exportItem e))

theorem unsupported_of_defines {p : Function × Nat} (h : (m.env options).Defines m p items) :
    items.filterMap Item.unsupported? = [] := by
  cases h with
  | pruned | rejected => rfl
  | @written _ lowered =>
    unfold FunctionEntry.definitions
    split <;> rfl

/-- The comments on unsupported fields in a chunk are one for each such field. -/
theorem unsupported_items (h : (lowerModule options m).outcome.1 = .ok chunk) :
    chunk.items.filterMap Item.unsupported? = m.unsupportedFields := by
  rw [filterMap_items Item.unsupported_of_isPlain h fun _ _ _ hd => unsupported_of_defines hd]
  simp [Item.unsupported?]

/-! ### Lines -/

theorem not_mem_splitLines : (cs current : List Char) → '\n' ∉ current →
    ∀ line ∈ splitLines current cs, '\n' ∉ line
  | [], current, h, line, hline => by
    unfold splitLines at hline
    split at hline
    · cases hline
    · rw [List.mem_singleton.1 hline]
      exact mt List.mem_reverse.1 h
  | c :: cs, current, h, line, hline => by
    unfold splitLines at hline
    split at hline
    · obtain rfl | hline := List.mem_cons.1 hline
      · unfold withoutReturn
        split
        · rename_i rest hrest
          rw [List.reverse_reverse] at hrest
          rw [List.mem_reverse]
          exact fun hmem => h (hrest ▸ List.mem_cons_of_mem _ hmem)
        · exact mt List.mem_reverse.1 h
      · exact not_mem_splitLines cs [] (List.not_mem_nil) line hline
    · rename_i hc
      refine not_mem_splitLines cs (c :: current) ?_ line hline
      exact fun hmem => (List.mem_cons.1 hmem).elim (fun heq => hc heq.symm) h

theorem not_mem_linesOf {text line : String} (h : line ∈ linesOf text) : '\n' ∉ line.toList := by
  obtain ⟨cs, hcs, rfl⟩ := List.mem_map.1 h
  rw [String.toList_ofList]
  exact not_mem_splitLines _ [] List.not_mem_nil cs hcs

theorem oneLine_iff {t : String} : OneLine t ↔ '\n' ∉ t.toList ∧ '\r' ∉ t.toList := by
  unfold OneLine Scan.isBreak
  constructor
  · exact fun h => ⟨fun hmem => absurd (h _ hmem) (by decide), fun hmem => absurd (h _ hmem) (by decide)⟩
  · intro h c hc
    have hn : c ≠ '\n' := fun heq => h.1 (heq ▸ hc)
    have hr : c ≠ '\r' := fun heq => h.2 (heq ▸ hc)
    simp [hn, hr]

/-- **What names can do to the lines of a chunk.** There is one comment for each unsupported field,
and one row for each name of the whitelist and each export, which binds it or comments on it. The
lines of the region are the rows, without any other line break, exactly if no name that is pasted
into a comment holds one. -/
theorem linesOf_region_iff (h : (lowerModule options m).outcome.1 = .ok chunk) :
    chunk.text = Prelude.text ++ "\n" ++ chunk.region ∧
    chunk.items.filterMap Item.unsupported? = m.unsupportedFields ∧
    (∃ front bound, chunk.items =
        front ++ bound ++ m.start?.elim [] (startItems (Registry.ofModule m).2) ∧
      List.Forall₂ (fun name item => item.Announces name)
        (options.whitelist.getD [] ++ m.exports.map Export.name) bound) ∧
    ((linesOf chunk.region = chunk.rows Lowered.rows ∧
        ∀ line ∈ linesOf chunk.region, '\r' ∉ line.toList) ↔
      ∀ name ∈ m.pasted options, OneLine name) := by
  refine ⟨chunk.text_eq, unsupported_items h, ?_, ?_⟩
  · obtain ⟨-, parts, initial, hitems, -, -⟩ := items_lowerModule h
    refine ⟨(Registry.ofModule m).1 ++ parts.flatten ++ initial, _, ?_, announces_bindings options m⟩
    rw [hitems]
    exact (List.append_assoc _ _ _).symm
  · rw [← unbroken_items_iff h, ← oneLine_rows_iff]
    constructor
    · rintro ⟨hlines, hreturn⟩ row hrow
      rw [← hlines] at hrow
      exact oneLine_iff.2 ⟨not_mem_linesOf hrow, hreturn row hrow⟩
    · intro hrows
      have hlines := linesOf_region hrows
      refine ⟨hlines, fun line hline => ?_⟩
      rw [hlines] at hline
      exact (oneLine_iff.1 (hrows line hline)).2

end

/-- An export that points nowhere, with a line break in its name. -/
def brokenExport : Module where
  name := some "m"
  types := []
  fields := [.exported ⟨"x\nos.exit()--", .table, 4⟩]

theorem linesOf_region_brokenExport : ∃ chunk, (lowerModule {} brokenExport).outcome.1 = .ok chunk ∧
    brokenExport.pasted {} = ["x\nos.exit()--"] ∧
    "os.exit()-- refers to missing Table 4" ∈ linesOf chunk.region ∧
    ¬ (linesOf chunk.region = chunk.rows Lowered.rows ∧
      ∀ line ∈ linesOf chunk.region, '\r' ∉ line.toList) := by
  have hlines : ((lowerModule {} brokenExport).outcome.1.toOption.map fun c => linesOf c.region) =
      some ["do", "    local __EXPORTS__ = \x7b\x7d", "    __MODULES__.m = __EXPORTS__",
        "    -- WARNING: export x", "os.exit()-- refers to missing Table 4", "end"] := by
    decide +kernel
  have hpasted : brokenExport.pasted {} = ["x\nos.exit()--"] := by decide +kernel
  cases hchunk : (lowerModule {} brokenExport).outcome.1 with
  | error e =>
    rw [hchunk] at hlines
    cases hlines
  | ok chunk =>
    rw [hchunk] at hlines
    obtain ⟨-, -, -, hiff⟩ := linesOf_region_iff hchunk
    refine ⟨chunk, rfl, hpasted, ?_, ?_⟩
    · have hlist : linesOf chunk.region = _ := Option.some.inj hlines
      rw [hlist]
      simp
    · rw [hiff, hpasted, List.forall_mem_singleton]
      exact fun hone => absurd (hone '\n' (by decide)) (by decide)

end Moonstack
