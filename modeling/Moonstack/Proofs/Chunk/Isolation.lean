import Moonstack.Proofs.Chunk.Items
import Moonstack.Proofs.Chunk.Rows

/-!
# Functions by themselves

What a function becomes depends on its own locals and body, and nothing else in the chunk does. Two
modules that differ in the locals and the body of one function only become texts that differ in the
definition of that function only (`program_isolated`).
-/

namespace Moonstack

open Logged

/-- A module without one of its functions. -/
structure Surroundings where
  name : Option String
  types : List Signature
  before : List Field
  after : List Field

namespace Surroundings

variable (s : Surroundings) (f : Function)

/-- The module with the function in its place. -/
def fill : Module := ⟨s.name, s.types, s.before ++ .function f :: s.after⟩

/-- The module as it is, without the function. -/
def rest : Module := ⟨s.name, s.types, s.before ++ s.after⟩

def earlier : List Function := Module.functions { fields := s.before }

def later : List Function := Module.functions { fields := s.after }

def index : Nat := s.rest.importedFunctions + s.earlier.length

theorem functions_fill : (s.fill f).functions = s.earlier ++ f :: s.later := by
  simp [Module.functions, fill, earlier, later, List.filterMap_append]

/-- All else is as it was. -/
@[simp]
theorem others_fill : (s.fill f).imports = s.rest.imports ∧ (s.fill f).exports = s.rest.exports ∧
    (s.fill f).globals = s.rest.globals ∧ (s.fill f).elements = s.rest.elements ∧
    (s.fill f).dataSegments = s.rest.dataSegments := by
  simp [Module.imports, Module.exports, Module.globals, Module.elements, Module.dataSegments, fill,
    rest, List.filterMap_append]

@[simp]
theorem start_fill : (s.fill f).start? = s.rest.start? := by
  simp [Module.start?, fill, rest, List.findSome?_append]

theorem indexed_fill : (s.fill f).indexed =
    s.earlier.zipIdx s.rest.importedFunctions ++ (f, s.index) :: s.later.zipIdx (s.index + 1) := by
  have himported : (s.fill f).importedFunctions = s.rest.importedFunctions := by
    simp [Module.importedFunctions]
  rw [Module.indexed, functions_fill, himported, List.zipIdx_append, List.zipIdx_cons]
  rfl

theorem isPruned_fill : isPruned (s.fill f) = isPruned s.rest := by
  funext whitelist index entry
  simp only [isPruned, others_fill]

theorem moduleInitial_fill (env : Env) : moduleInitial env (s.fill f) = moduleInitial env s.rest := by
  simp only [moduleInitial, Module.importedGlobals, others_fill]

theorem moduleExports_fill (env : Env) : moduleExports env (s.fill f) = moduleExports env s.rest := by
  have hitem : whitelistItem env.registry (s.fill f) = whitelistItem env.registry s.rest := by
    funext name
    simp only [whitelistItem, Registry.whitelisted?, others_fill]
  simp only [moduleExports, hitem, others_fill, start_fill]

theorem declareField_fill (r : Registry) (field : Field) :
    r.declareField (s.fill f) field = r.declareField s.rest field := by
  cases field <;> simp only [Registry.declareField, Registry.declareFunction, Module.functionName,
    Module.exportName?, others_fill]

/-- The declarations read the name and the type of a function only. -/
theorem ofModule_fill (locals : List ValueType) (body : List Instr) :
    Registry.ofModule (s.fill { f with locals, body }) = Registry.ofModule (s.fill f) := by
  -- of a function, its declaration reads the name and the type
  have hown (r : Registry) : r.declareField s.rest (.function { f with locals, body }) =
      r.declareField s.rest (.function f) := rfl
  have hfields (g : Function) (r : Registry) (fields : List Field) :
      r.declareFields (s.fill g) fields = r.declareFields s.rest fields := by
    induction fields generalizing r with
    | nil => rfl
    | cons field rest ih => simp only [Registry.declareFields, declareField_fill, ih]
  have hall (r : Registry) : r.declareFields s.rest (s.fill { f with locals, body }).fields =
      r.declareFields s.rest (s.fill f).fields := by
    unfold fill
    induction s.before generalizing r with
    | nil => simp only [List.nil_append, Registry.declareFields, hown]
    | cons field before ih => simp only [List.cons_append, Registry.declareFields, ih]
  simp only [Registry.ofModule, others_fill, hfields, hall]
  rfl

end Surroundings

namespace Env.Defines

variable {env : Env} {m : Module} {p : Function × Nat} {items items' : List Item}

/-- What a function becomes is determined by the registry: neither the functions in front of it nor
what was logged matter. -/
theorem unique (h : env.Defines m p items) (h' : env.Defines m p items') : items = items' := by
  cases h <;> cases h' <;> simp_all

theorem fill {s : Surroundings} {f : Function} (h : env.Defines (s.fill f) p items) :
    env.Defines s.rest p items := by
  have hpruned := s.isPruned_fill f
  cases h with
  | pruned hentry hp => exact .pruned hentry (hpruned ▸ hp)
  | rejected hentry hp he hr => exact .rejected hentry (hpruned ▸ hp) he hr
  | written hentry hp hl => exact .written hentry (hpruned ▸ hp) hl

end Env.Defines

/-- The items define the function of the entry: a block of its name, or that of its resumable body
and the one that runs it. -/
inductive FunctionEntry.IsDefinition (entry : FunctionEntry) : List Item → Prop
  | block {d : Definition} (h : d.name = entry.id) : IsDefinition entry [.define d]
  | resumable {body runner : Definition} (hb : body.name = resumableName entry.id)
      (hr : runner.name = entry.id) : IsDefinition entry [.define body, .define runner]

theorem Env.Defines.isDefinition {env : Env} {m : Module} {p : Function × Nat} {items : List Item}
    (h : env.Defines m p items) :
    ∃ entry, env.registry.function? p.2 = some entry ∧ entry.IsDefinition items := by
  cases h with
  | @pruned entry hentry _ | @rejected entry _ _ hentry _ _ _ => exact ⟨entry, hentry, .block rfl⟩
  | @written entry lowered hentry _ _ =>
    refine ⟨entry, hentry, ?_⟩
    unfold FunctionEntry.definitions
    split
    · exact .resumable rfl rfl
    · exact .block rfl

/-- The text of items in the region of a module. -/
def itemsText (items : List Item) : String :=
  joinLines ((inset (items.flatMap (Item.rows fun f => linesOf f.text))).map fun r => rowAt r.1 r.2)

/-- The text in front of the items of a chunk. -/
def openingText (name : String) : String :=
  let place := (Expr.member (.helper .modules) name).text
  Prelude.text ++ "\n" ++ joinLines ["do", rowAt 1 s!"local {Helper.exports.name} = \x7b\x7d",
    rowAt 1 s!"{place} = {Helper.exports.name}"]

theorem itemsText_append (items more : List Item) :
    itemsText (items ++ more) = itemsText items ++ itemsText more := by
  simp [itemsText, inset, joinLines_append]

theorem Chunk.text_eq_itemsText (c : Chunk) :
    c.text = openingText c.name ++ itemsText c.items ++ "end\n" := by
  have hdo : rowAt 0 "do" = "do" := by decide
  have hend : rowAt 0 "end" = "end" := by decide
  have hnil : joinLines [] = "" := rfl
  rw [c.text_eq, region, rows, openingText, itemsText]
  simp [inset, joinLines_append, joinLines_cons, hdo, hend, hnil, String.append_assoc]

/-- The text of a program is that of the items of its module. -/
theorem items_programOfModule {options : Options} {m : Module} {text : String}
    (h : (programOfModule options m).outcome.1 = .ok text) :
    ∃ items, text = openingText (m.name.getD unnamedModule) ++ itemsText items ++ "end\n" ∧
      (m.env options).Assembles m items := by
  obtain ⟨-, chunk, ⟨hname, hitems⟩, hy⟩ | ⟨-, e, -, hy⟩ := ends_lowerModule options m
  · cases (hy.bind (.pure chunk.text)).outcome.symm.trans h
    exact ⟨chunk.items, by rw [chunk.text_eq_itemsText, hname], hitems⟩
  · cases hy.bind_error.outcome.symm.trans h

/-- Lists that are related to the two parts of a list have two parts themselves. -/
theorem forall₂_append_cons {α β : Type} {R : α → β → Prop} {front back : List α} {a : α}
    {parts : List β} (h : List.Forall₂ R (front ++ a :: back) parts) :
    ∃ front' b back', parts = front' ++ b :: back' ∧
      List.Forall₂ R front front' ∧ R a b ∧ List.Forall₂ R back back' := by
  induction front generalizing parts with
  | nil =>
    obtain ⟨b, back', hb, hback, rfl⟩ := List.forall₂_cons_left_iff.1 h
    exact ⟨[], b, back', rfl, .nil, hb, hback⟩
  | cons c front ih =>
    obtain ⟨c', parts', hc, hrest, rfl⟩ := List.forall₂_cons_left_iff.1 h
    obtain ⟨front', b, back', rfl, hfront, hb, hback⟩ := ih hrest
    exact ⟨c' :: front', b, back', rfl, .cons hc hfront, hb, hback⟩

/-- The items of a module, with those of the function apart. -/
theorem Env.Assembles.fill {env : Env} {s : Surroundings} {f : Function} {items : List Item}
    (h : env.Assembles (s.fill f) items) :
    ∃ earlier own later initial,
      items = ((Registry.ofModule (s.fill f)).1 ++ earlier.flatten) ++ own ++
        (later.flatten ++ initial ++ moduleExports env s.rest) ∧
      List.Forall₂ (env.Defines s.rest) (s.earlier.zipIdx s.rest.importedFunctions) earlier ∧
      env.Defines (s.fill f) (f, s.index) own ∧
      List.Forall₂ (env.Defines s.rest) (s.later.zipIdx (s.index + 1)) later ∧
      (moduleInitial env s.rest).outcome.1 = .ok initial := by
  obtain ⟨parts, initial, rfl, hparts, -, hinitial⟩ := h
  rw [s.indexed_fill] at hparts
  obtain ⟨earlier, own, later, rfl, hearlier, hown, hlater⟩ := forall₂_append_cons hparts
  rw [s.moduleInitial_fill] at hinitial
  refine ⟨earlier, own, later, initial, ?_, ?_, hown, ?_, hinitial⟩
  · simp [s.moduleExports_fill]
  · exact hearlier.imp fun _ _ h => h.fill
  · exact hlater.imp fun _ _ h => h.fill

/-- **Functions are isolated.** If a function has other locals and another body, the text of the
module is the same in front of its definition and behind it. The definition is a block of its name,
or that of its resumable body and the one that runs it, whatever the code comes to. -/
theorem program_isolated {options : Options} {s : Surroundings} {f : Function}
    {locals : List ValueType} {body : List Instr} {text text' : String}
    (h : (programOfModule options (s.fill f)).outcome.1 = .ok text)
    (h' : (programOfModule options (s.fill { f with locals, body })).outcome.1 = .ok text') :
    ∃ entry front own own' back,
      (Registry.ofModule (s.fill f)).2.function? s.index = some entry ∧
      text = front ++ itemsText own ++ back ∧ text' = front ++ itemsText own' ++ back ∧
      ((s.fill f).env options).Defines (s.fill f) (f, s.index) own ∧ entry.IsDefinition own ∧
      ((s.fill { f with locals, body }).env options).Defines (s.fill { f with locals, body })
        ({ f with locals, body }, s.index) own' ∧ entry.IsDefinition own' := by
  have henv : (s.fill { f with locals, body }).env options = (s.fill f).env options := by
    simp only [Module.env, s.ofModule_fill]
  obtain ⟨items, rfl, hitems⟩ := items_programOfModule h
  obtain ⟨items', rfl, hitems'⟩ := items_programOfModule h'
  rw [henv] at hitems'
  obtain ⟨earlier, own, later, initial, rfl, hearlier, hown, hlater, hinitial⟩ := hitems.fill
  obtain ⟨earlier', own', later', initial', rfl, hearlier', hown', hlater', hinitial'⟩ :=
    hitems'.fill
  have hunique : Relator.RightUnique ((s.fill f).env options |>.Defines s.rest) :=
    fun _ _ _ hone hother => hone.unique hother
  obtain rfl : earlier = earlier' := hunique.forall₂ hearlier hearlier'
  obtain rfl : later = later' := hunique.forall₂ hlater hlater'
  obtain rfl : initial = initial' := Except.ok.inj (hinitial.symm.trans hinitial')
  obtain ⟨entry, hentry, hdef⟩ := hown.isDefinition
  obtain ⟨entry', hentry', hdef'⟩ := hown'.isDefinition
  obtain rfl : entry = entry' := Option.some.inj (hentry.symm.trans hentry')
  refine ⟨entry, openingText (s.name.getD unnamedModule) ++
      itemsText ((Registry.ofModule (s.fill f)).1 ++ earlier.flatten), own, own',
    itemsText (later.flatten ++ initial ++ moduleExports ((s.fill f).env options) s.rest) ++ "end\n",
    hentry, ?_, ?_, hown, hdef, ?_, hdef'⟩
  · simp [itemsText_append, String.append_assoc, Surroundings.fill]
  · rw [s.ofModule_fill]
    simp [itemsText_append, String.append_assoc, Surroundings.fill]
  · rw [henv]
    exact hown'

/-- A module that is a function short, between one that is written and one that calls it. -/
def betweenTwo : Surroundings where
  name := none
  types := [⟨[.i32], [.i32]⟩]
  before := [.imported ⟨"env", "setjmp", .function 0⟩, .memory ⟨1, none⟩,
    .function ⟨some "f", 0, [], [.leaf 0 (.localGet 0)]⟩]
  after := [.function ⟨some "h", 0, [], [.leaf 0 (.localGet 0), .leaf 1 (.call 2)]⟩,
    .exported ⟨"main", .function, 3⟩]

/-- A function without code becomes one with a place to resume at. -/
theorem program_isolated_resumable :
    let empty : Function := ⟨some "g", 0, [], []⟩
    let jumps : List Instr := [.leaf 0 (.localGet 0), .leaf 1 (.call 0)]
    ∃ text text', (programOfModule {} (betweenTwo.fill empty)).outcome.1 = .ok text ∧
      (programOfModule {} (betweenTwo.fill { empty with locals := [.i64], body := jumps })).outcome.1 =
        .ok text' ∧
      ∃ (entry : FunctionEntry) (front : String) (own own' : List Item) (back : String),
        entry.id = "g" ∧ text = front ++ itemsText own ++ back ∧
        text' = front ++ itemsText own' ++ back ∧ entry.IsDefinition own ∧
        entry.IsDefinition own' := by
  intro empty jumps
  have hok (m : Module) (h : (programOfModule {} m).outcome.1.isOk = true) :
      ∃ text, (programOfModule {} m).outcome.1 = .ok text := by
    cases hm : (programOfModule {} m).outcome.1 with
    | ok text => exact ⟨text, rfl⟩
    | error e =>
      rw [hm] at h
      cases h
  obtain ⟨text, h⟩ := hok (betweenTwo.fill empty) (by decide +kernel)
  obtain ⟨text', h'⟩ := hok (betweenTwo.fill { empty with locals := [.i64], body := jumps })
    (by decide +kernel)
  obtain ⟨entry, front, own, own', back, hentry, htext, htext', -, hown, -, hown'⟩ :=
    program_isolated h h'
  refine ⟨text, text', h, h', entry, front, own, own', back, ?_, htext, htext', hown, hown'⟩
  have hid : ((Registry.ofModule (betweenTwo.fill empty)).2.function? 2).map FunctionEntry.id =
      some "g" := by decide +kernel
  have hindex : betweenTwo.index = 2 := by decide
  rw [hindex] at hentry
  rw [hentry] at hid
  exact Option.some.inj hid

end Moonstack
