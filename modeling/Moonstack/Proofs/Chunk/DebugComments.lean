import Moonstack.Proofs.Chunk.Comments
import Moonstack.Proofs.Emission.Muting

/-!
# Debug options

Debug options add comments to a chunk and change nothing else (`program_debug`). With other debug
options a module fails alike or becomes a text that is the same without its comment lines, if the
names of its unsupported instructions hold no line break, and each function has the same parameters,
locals, results and warnings.

`Logged.Agrees R x y` says that two computations fail alike or give results that `R` relates,
whatever was logged before.
-/

namespace Moonstack

/-! ## Results that agree -/

namespace Logged

variable {α β : Type}

/-- The computations fail alike, or give results that are related. -/
def Agrees (R : α → α → Prop) (x y : Logged α) : Prop :=
  (∃ a b, R a b ∧ Yields x (.ok a) ∧ Yields y (.ok b)) ∨
    ∃ e, Yields x (.error e) ∧ Yields y (.error e)

namespace Agrees

variable {R : α → α → Prop} {S : β → β → Prop} {x y : Logged α} {k l : α → Logged β}

theorem pure {a b : α} (h : R a b) : Agrees R (Pure.pure a) (Pure.pure b) :=
  .inl ⟨a, b, h, .pure a, .pure b⟩

theorem throw (e : Failure) : Agrees R (MonadExcept.throw e : Logged α) (MonadExcept.throw e) :=
  .inr ⟨e, .throw e, .throw e⟩

theorem bind (hx : Agrees R x y) (hk : ∀ a b, R a b → Agrees S (k a) (l b)) :
    Agrees S (x >>= k) (y >>= l) := by
  obtain ⟨a, b, hab, hxa, hyb⟩ | ⟨e, hxe, hye⟩ := hx
  · obtain ⟨c, d, hcd, hc, hd⟩ | ⟨e, hc, hd⟩ := hk a b hab
    · exact .inl ⟨c, d, hcd, hxa.bind hc, hyb.bind hd⟩
    · exact .inr ⟨e, hxa.bind hc, hyb.bind hd⟩
  · exact .inr ⟨e, hxe.bind_error, hye.bind_error⟩

theorem imp {R' : α → α → Prop} (hx : Agrees R x y) (h : ∀ a b, R a b → R' a b) :
    Agrees R' x y := by
  obtain ⟨a, b, hab, hyields⟩ | hfail := hx
  · exact .inl ⟨a, b, h a b hab, hyields⟩
  · exact .inr hfail

/-- A step that is the same in both and gives one result. -/
theorem after {z : Logged α} {a : α} (hz : Yields z (.ok a)) (hk : Agrees S (k a) (l a)) :
    Agrees S (z >>= k) (z >>= l) := by
  refine Agrees.bind (R := fun b c => b = a ∧ c = a) (.inl ⟨a, a, ⟨rfl, rfl⟩, hz, hz⟩) ?_
  rintro _ _ ⟨rfl, rfl⟩
  exact hk

theorem within (c : Context) (hx : Agrees R x y) :
    Agrees R (Logged.within c x) (Logged.within c y) := by
  obtain ⟨a, b, hab, hxa, hyb⟩ | ⟨e, hxe, hye⟩ := hx
  · exact .inl ⟨a, b, hab, hxa.within c, hyb.within c⟩
  · exact .inr ⟨e.within c, hxe.within c, hye.within c⟩

theorem attempt (hx : Agrees R x y) : Agrees
    (fun r s => (∃ a b, R a b ∧ r = .ok a ∧ s = .ok b) ∨ ∃ e, r = .error e ∧ s = .error e)
    (Logged.attempt x) (Logged.attempt y) := by
  obtain ⟨a, b, hab, hxa, hyb⟩ | ⟨e, hxe, hye⟩ := hx
  · exact .inl ⟨_, _, .inl ⟨a, b, hab, rfl, rfl⟩, hxa.attempt, hyb.attempt⟩
  · exact .inl ⟨_, _, .inr ⟨e, rfl, rfl⟩, hxe.attempt, hye.attempt⟩

theorem ofExcept {R : α → α → Prop} (r : Except Failure α) (hR : ∀ a, R a a) :
    Agrees R (Logged.ofExcept r) (Logged.ofExcept r) := by
  cases r with
  | ok a => exact .pure (hR a)
  | error e => exact .throw e

theorem mapM {γ : Type} {f g : γ → Logged α} (items : List γ)
    (hf : ∀ c ∈ items, Agrees R (f c) (g c)) :
    Agrees (List.Forall₂ R) (items.mapM f) (items.mapM g) := by
  induction items with
  | nil =>
    rw [List.mapM_nil, List.mapM_nil]
    exact .pure .nil
  | cons c rest ih =>
    rw [List.forall_mem_cons] at hf
    rw [List.mapM_cons, List.mapM_cons]
    exact hf.1.bind fun a b hab => (ih hf.2).bind fun as bs habs => .pure (.cons hab habs)

end Agrees

end Logged

open Logged Emit

/-! ## Functions and initializers -/

/-- The environment with other debug options. -/
def Env.withDebug (env : Env) (debug : Debug) : Env :=
  { env with options := { env.options with debug } }

/-- The function without comments. -/
def Lowered.mute (f : Lowered) : Lowered :=
  { f with lines := f.lines.filter fun p => !p.line.isComment }

section

variable (env : Env) (debug : Debug)

theorem registry_withDebug : (env.withDebug debug).registry = env.registry := rfl

theorem op_withDebug (offset : Nat) (o : Op) :
    Emit.op (env.withDebug debug) offset o = Emit.op env offset o := by
  cases o <;> rfl

mutual

theorem instr_withDebug : (i : Instr) → Emit.instr (env.withDebug debug) i = Emit.instr env i
  | .leaf offset o => by simp only [Emit.instr, op_withDebug]
  | .block offset result inner | .loop offset result inner | .ifThen offset result inner =>
    by simp only [Emit.instr, body_withDebug inner]
  | .ifElse offset result inner other => by
    simp only [Emit.instr, body_withDebug inner, body_withDebug other]

theorem body_withDebug : (code : List Instr) →
    Emit.body (env.withDebug debug) code = Emit.body env code
  | [] => rfl
  | i :: rest => by simp only [Emit.body, instr_withDebug i, body_withDebug rest]

end

/-- Runs from frames that are the same but for comments. -/
theorem agrees_runLogged {α : Type} {x : Emit α} (hx : Inert x) {f g : Frame} (hf : f.mute = g.mute) :
    Agrees (fun r s => r.1 = s.1 ∧ r.2.mute = s.2.mute) (runLogged x f) (runLogged x g) := by
  have he : ({ frame := f } : Emission).mute = ({ frame := g } : Emission).mute :=
    congrArg (fun f => ({ frame := f } : Emission)) hf
  have hboth := hx _ _ he
  have hf := yields_runLogged x f
  have hg := yields_runLogged x g
  unfold Both at hboth
  split at hboth
  · rename_i hfe hge
    rw [Emit.result, hfe] at hf
    rw [Emit.result, hge] at hg
    exact .inl ⟨_, _, hboth, hf, hg⟩
  · rename_i hfe hge
    rw [Emit.result, hfe] at hf
    rw [Emit.result, hge, ← hboth] at hg
    exact .inr ⟨_, hf, hg⟩
  · exact hboth.elim

theorem startFrame_withDebug (id : String) (signature : Option Signature) (locals : List ValueType)
    (code : List Instr) : (startFrame env id signature locals code).mute =
      (startFrame (env.withDebug debug) id signature locals code).mute :=
  rfl

/-- What is read of an emission when its function is put together. -/
theorem lowered_mute {e d : Emission} (h : e.mute = d.mute) :
    header e.frame = header d.frame ∧ e.frame.sites = d.frame.sites ∧
      declaredSlots e.frame = declaredSlots d.frame ∧ e.frame.warnings = d.frame.warnings ∧
      e.lines.toList.filter (fun p => !p.line.isComment) =
        d.lines.toList.filter (fun p => !p.line.isComment) := by
  have hf : e.frame.mute = d.frame.mute := congrArg Emission.frame h
  have hl : e.mute.lines.toList = d.mute.lines.toList := by rw [h]
  exact ⟨(congrArg header hf :), (congrArg Frame.sites hf :), (congrArg declaredSlots hf :),
    (congrArg Frame.warnings hf :), by simpa [Emission.mute] using hl⟩

/-- With other debug options a function is the same but for comments. -/
theorem agrees_lowerFunction (id name : String) (function : Function) :
    Agrees (fun a b => a.mute = b.mute) (lowerFunction env id name function)
      (lowerFunction (env.withDebug debug) id name function) := by
  unfold lowerFunction
  simp only [registry_withDebug]
  cases env.registry.types[function.type]? with
  | none => exact .throw _
  | some signature =>
    refine Agrees.bind (R := fun _ _ => True) (Agrees.ofExcept _ fun _ => trivial) fun _ _ _ => ?_
    have hrun := agrees_runLogged (inert_function env signature.params.length function.body)
      (startFrame_withDebug env debug id (some signature) function.locals function.body)
    simp only [body_withDebug]
    refine hrun.bind ?_
    rintro ⟨params, e⟩ ⟨_, d⟩ ⟨rfl, hmute : e.mute = d.mute⟩
    obtain ⟨hheader, hsites, hdeclared, hwarnings, hlines⟩ := lowered_mute hmute
    apply Agrees.pure
    simp only [Lowered.mute, hheader, hsites, hdeclared, hwarnings, hlines]

theorem agrees_lowerInitializer (id : String) (code : List Instr) :
    Agrees (fun a b => a.mute = b.mute) (lowerInitializer env id code)
      (lowerInitializer (env.withDebug debug) id code) := by
  have hinert : Inert (initializer env code) :=
    Silent.inert (holds_initializer full_silence False.elim 0 False.elim)
  have hrun := agrees_runLogged hinert (startFrame_withDebug env debug id none [] code)
  unfold lowerInitializer
  simp only [body_withDebug]
  refine Agrees.bind (R := fun _ _ => True) (Agrees.ofExcept _ fun _ => trivial) fun _ _ _ => ?_
  refine hrun.bind ?_
  rintro ⟨value, e⟩ ⟨_, d⟩ ⟨rfl, hmute : e.mute = d.mute⟩
  obtain ⟨hheader, -, hdeclared, hwarnings, hlines⟩ := lowered_mute hmute
  apply Agrees.pure
  simp only [Lowered.mute, hheader, hdeclared, hwarnings, hlines]

end

/-- The functions take and give the same, declare the same locals, and have the same warnings. -/
structure Lowered.SameShape (a b : Lowered) : Prop where
  params : a.params = b.params
  declared : a.declared = b.declared
  resultCount : a.resultCount = b.resultCount
  usesSetjmp : a.usesSetjmp = b.usesSetjmp
  value : a.value = b.value
  warnings : a.warnings = b.warnings

theorem Lowered.sameShape_of_mute {a b : Lowered} (h : a.mute = b.mute) : a.SameShape b where
  params := (congrArg Lowered.params h :)
  declared := (congrArg Lowered.declared h :)
  resultCount := (congrArg Lowered.resultCount h :)
  usesSetjmp := (congrArg Lowered.usesSetjmp h :)
  value := (congrArg Lowered.value h :)
  warnings := (congrArg Lowered.warnings h :)

/-! ## Comment lines of a text -/

/-- Are `--` the first characters of the line that are not blank? -/
def isCommentLine (line : List Char) : Bool :=
  ['-', '-'].isPrefixOf (line.dropWhile Char.isWhitespace)

/-- What remains of a text without its comment lines. -/
def codeLines (text : String) : List (List Char) :=
  (text.toList.splitOn '\n').filter fun line => !isCommentLine line

def withoutComments (text : String) : String :=
  String.ofList (['\n'].intercalate (codeLines text))

theorem codeLines_append (s t : String) : codeLines (s ++ "\n" ++ t) = codeLines s ++ codeLines t := by
  have hsplit : (s.toList ++ '\n' :: t.toList).splitOn '\n' =
      s.toList.splitOn '\n' ++ t.toList.splitOn '\n' :=
    List.splitOnP_append_cons _ _ (by simp)
  have htext : (s ++ "\n" ++ t).toList = s.toList ++ '\n' :: t.toList := by simp
  rw [codeLines, htext, hsplit, List.filter_append]
  rfl

theorem codeLines_joinLines (rows : List String) :
    codeLines (joinLines rows) = rows.flatMap codeLines ++ codeLines "" := by
  induction rows with
  | nil => rfl
  | cons row rest ih =>
    rw [joinLines_cons, codeLines_append, ih, List.flatMap_cons, List.append_assoc]

theorem isCommentLine_row (n k : Nat) (text : String) :
    isCommentLine (indentation n ++ (indentation k ++ ("-- " ++ text))).toList = true := by
  have hblank (n : Nat) : ∀ c ∈ (indentation n).toList, c.isWhitespace = true := by
    intro c hc
    rw [indentation, String.toList_ofList] at hc
    rw [List.eq_of_mem_replicate hc]
    decide
  rw [isCommentLine, String.toList_append, String.toList_append,
    List.dropWhile_append_of_pos (hblank n), List.dropWhile_append_of_pos (hblank k)]
  simp

/-- A comment of one line leaves nothing. -/
theorem codeLines_comment (n : Nat) {p : Placed} (hp : p.line.isComment = true)
    (hrow : OneLine p.row) : codeLines (rowAt n p.row) = [] := by
  obtain ⟨indent, line⟩ := p
  cases line with
  | comment text =>
    have hone : OneLine (rowAt n (Placed.row ⟨indent, .comment text⟩)) := oneLine_rowAt.2 hrow
    have hfeed : '\n' ∉ (rowAt n (Placed.row ⟨indent, .comment text⟩)).toList :=
      fun hmem => absurd (hone '\n' hmem) (by decide)
    have hne : (Placed.row ⟨indent, .comment text⟩).isEmpty = false := by
      simp [Placed.row, Line.text]
    have htext : rowAt n (Placed.row ⟨indent, .comment text⟩) =
        indentation n ++ (indentation indent ++ ("-- " ++ text)) := by
      rw [rowAt, hne]
      rfl
    rw [codeLines, List.splitOn_eq_singleton hfeed, htext, List.filter_singleton,
      isCommentLine_row]
    rfl
  | _ => cases hp

/-! ## Rows -/

/-- At every indentation, the rows come to the same lines without comments. -/
def SameCode (rows rows' : List (Nat × String)) : Prop :=
  ∀ n, rows.flatMap (fun r => codeLines (rowAt (n + r.1) r.2)) =
    rows'.flatMap fun r => codeLines (rowAt (n + r.1) r.2)

namespace SameCode

variable {rows rows' more more' : List (Nat × String)}

theorem refl (rows : List (Nat × String)) : SameCode rows rows := fun _ => rfl

theorem cons (r : Nat × String) (h : SameCode rows rows') : SameCode (r :: rows) (r :: rows') := by
  intro n
  rw [List.flatMap_cons, List.flatMap_cons, h n]

theorem append (h : SameCode rows rows') (h' : SameCode more more') :
    SameCode (rows ++ more) (rows' ++ more') := by
  intro n
  rw [List.flatMap_append, List.flatMap_append, h n, h' n]

theorem inset (h : SameCode rows rows') : SameCode (inset rows) (inset rows') := by
  intro n
  have hdeeper := h (n + 1)
  simp only [Nat.add_assoc, Nat.add_comm 1] at hdeeper
  simp only [Moonstack.inset, List.flatMap_map]
  exact hdeeper

end SameCode

/-- The functions are the same but for comments, and each of their rows is a line. -/
structure Lowered.Like (f f' : Lowered) : Prop where
  mute : f.mute = f'.mute
  left : ∀ row ∈ f.rows, OneLine row
  right : ∀ row ∈ f'.rows, OneLine row

theorem codeLines_lines (n : Nat) (lines : List Placed) (h : ∀ p ∈ lines, OneLine p.row) :
    lines.flatMap (fun p => codeLines (rowAt n p.row)) =
      (lines.filter fun p => !p.line.isComment).flatMap fun p => codeLines (rowAt n p.row) := by
  induction lines with
  | nil => rfl
  | cons p rest ih =>
    rw [List.forall_mem_cons] at h
    cases hp : p.line.isComment with
    | true => simp [hp, codeLines_comment n hp h.1, ih h.2]
    | false => simp [hp, ih h.2]

theorem Lowered.Like.sameCode {f f' : Lowered} (h : f.Like f') :
    SameCode ((linesOf f.text).map ((0, ·))) ((linesOf f'.text).map ((0, ·))) := by
  have hlines (g : Lowered) (hg : ∀ row ∈ g.rows, OneLine row) : linesOf g.text = g.rows :=
    g.linesOf_text fun p hp => hg _ (List.mem_map_of_mem hp)
  have hcode (n : Nat) (g : Lowered) (hg : ∀ row ∈ g.rows, OneLine row) :
      (g.rows.map ((0, ·))).flatMap (fun r => codeLines (rowAt (n + r.1) r.2)) =
        g.mute.header.flatMap (fun p => codeLines (rowAt n p.row)) ++
          g.mute.lines.flatMap fun p => codeLines (rowAt n p.row) := by
    have hbody := codeLines_lines n g.lines fun p hp =>
      hg _ (List.mem_map_of_mem (List.mem_append_right _ hp))
    simp only [Lowered.rows, List.map_append, List.flatMap_append, List.flatMap_map, Nat.add_zero,
      hbody]
    rfl
  intro n
  rw [hlines f h.left, hlines f' h.right, hcode n f h.left, hcode n f' h.right, h.mute]

/-- The items are the same but for comments in their code. -/
inductive Item.Like : Item → Item → Prop
  | same (item : Item) : Like item item
  | define (name : String) (params : List String) {f f' : Lowered} (h : f.Like f') :
      Like (.define ⟨name, params, .code f⟩) (.define ⟨name, params, .code f'⟩)
  | initial (use : InitialUse) {f f' : Lowered} (h : f.Like f') :
      Like (.initial f use) (.initial f' use)

theorem Item.Like.sameCode {item item' : Item} (h : item.Like item') :
    SameCode (item.rows fun f => linesOf f.text) (item'.rows fun f => linesOf f.text) := by
  cases h with
  | same => exact .refl _
  | define name params h =>
    simp only [Item.rows, Definition.rows, Definition.bodyRows]
    exact (h.sameCode.inset.cons _).append (.refl _)
  | @initial use f f' h =>
    have hvalue : initialValue f = initialValue f' :=
      (congrArg initialValue h.mute : initialValue f.mute = initialValue f'.mute)
    simp only [Item.rows, hvalue]
    exact ((h.sameCode.append (.refl _)).inset.cons _).append (.refl _)

theorem sameCode_items {items items' : List Item} (h : List.Forall₂ Item.Like items items') :
    SameCode (items.flatMap (Item.rows fun f => linesOf f.text))
      (items'.flatMap (Item.rows fun f => linesOf f.text)) := by
  induction h with
  | nil => exact .refl _
  | cons hone _ ih => exact hone.sameCode.append ih

/-- The texts of chunks whose items are the same but for comments are the same without comments. -/
theorem withoutComments_text {c c' : Chunk} (hname : c.name = c'.name)
    (h : List.Forall₂ Item.Like c.items c'.items) :
    withoutComments c.text = withoutComments c'.text := by
  have hrows : (c.rows fun f => linesOf f.text).flatMap codeLines =
      (c'.rows fun f => linesOf f.text).flatMap codeLines := by
    have hall (r r' : Nat × String) := ((((sameCode_items h).cons r).cons r').inset.cons
      (0, "do")).append (.refl [(0, "end")]) 0
    simp only [Nat.zero_add] at hall
    simp only [Chunk.rows, List.flatMap_map, hname]
    exact hall _ _
  rw [withoutComments, withoutComments, c.text_eq, c'.text_eq, codeLines_append, codeLines_append,
    Chunk.region, Chunk.region, codeLines_joinLines, codeLines_joinLines, hrows]

/-! ## Modules -/

def Module.unsupportedInstructions (m : Module) : List String :=
  (m.functions.map Function.body ++ m.globals.map Global.init ++
    m.elements.map ElementSegment.offset ++ m.dataSegments.map DataSegment.offset).flatMap
      Instr.bodyUnsupportedNames

/-- The names of the unsupported instructions of the code hold no line break. -/
def OneLineNames (code : List Instr) : Prop :=
  ∀ name ∈ Instr.bodyUnsupportedNames code, OneLine name

section

variable {env : Env} (htidy : env.registry.Tidy) (debug : Debug)
include htidy

/-- A function is written alike under both options. -/
theorem like_lowerFunction (id name : String) {function : Function}
    (hnames : OneLineNames function.body) :
    Agrees Lowered.Like (lowerFunction env id name function)
      (lowerFunction (env.withDebug debug) id name function) := by
  have htidy' : (env.withDebug debug).registry.Tidy := htidy
  obtain ⟨a, b, hab, ha, hb⟩ | hfail := agrees_lowerFunction env debug id name function
  · exact .inl ⟨a, b, ⟨hab, (oneLine_rows_lowerFunction htidy ha.outcome).2 hnames,
      (oneLine_rows_lowerFunction htidy' hb.outcome).2 hnames⟩, ha, hb⟩
  · exact .inr hfail

theorem like_lowerInitializer (id : String) {code : List Instr} (hnames : OneLineNames code) :
    Agrees Lowered.Like (lowerInitializer env id code)
      (lowerInitializer (env.withDebug debug) id code) := by
  have htidy' : (env.withDebug debug).registry.Tidy := htidy
  obtain ⟨a, b, hab, ha, hb⟩ | hfail := agrees_lowerInitializer env debug id code
  · exact .inl ⟨a, b, ⟨hab, (oneLine_rows_lowerInitializer htidy ha.outcome).2 hnames,
      (oneLine_rows_lowerInitializer htidy' hb.outcome).2 hnames⟩, ha, hb⟩
  · exact .inr hfail

omit htidy in
theorem like_definitions (entry : FunctionEntry) {f f' : Lowered} (h : f.Like f') :
    List.Forall₂ Item.Like (entry.definitions f) (entry.definitions f') := by
  have hsame := Lowered.sameShape_of_mute h.mute
  unfold FunctionEntry.definitions
  rw [hsame.usesSetjmp, hsame.params, hsame.resultCount]
  split
  · exact .cons (.define _ _ h) (.cons (.same _) .nil)
  · exact .cons (.define _ _ h) .nil

/-- The items and the tally of functions that are written alike. -/
def LikeTally (r s : List Item × Tally) : Prop := List.Forall₂ Item.Like r.1 s.1 ∧ r.2 = s.2

theorem like_keptFunction (entry : FunctionEntry) {f : Function} (hnames : OneLineNames f.body)
    (tally : Tally) : Agrees LikeTally (keptFunction env entry f tally)
      (keptFunction (env.withDebug debug) entry f tally) := by
  refine (like_lowerFunction htidy debug entry.id entry.name hnames).attempt.bind ?_
  rintro _ _ (⟨a, b, hab, rfl, rfl⟩ | ⟨e, rfl, rfl⟩)
  · exact .pure ⟨like_definitions entry hab, rfl⟩
  · simp only
    split
    · exact .after (.record _ _) (.pure ⟨.cons (.same _) .nil, rfl⟩)
    · exact .throw _

theorem like_functionItems (m : Module) (index : Nat) {f : Function} (hnames : OneLineNames f.body)
    (tally : Tally) : Agrees LikeTally (functionItems env m index f tally)
      (functionItems (env.withDebug debug) m index f tally) := by
  unfold functionItems
  simp only [registry_withDebug]
  cases env.registry.function? index with
  | none => exact .throw _
  | some entry =>
    change Agrees _ (if isPruned m env.options.whitelist index entry = true then _ else _)
      (if isPruned m env.options.whitelist index entry = true then _ else _)
    split
    · exact .pure ⟨.cons (.same _) .nil, rfl⟩
    · exact like_keptFunction htidy debug entry hnames tally

theorem like_functionsItems (m : Module) (functions : List Function) (index : Nat) (tally : Tally)
    (hnames : ∀ f ∈ functions, OneLineNames f.body) :
    Agrees LikeTally (functionsItems env m index tally functions)
      (functionsItems (env.withDebug debug) m index tally functions) := by
  induction functions generalizing index tally with
  | nil => exact .pure ⟨.nil, rfl⟩
  | cons f rest ih =>
    rw [List.forall_mem_cons] at hnames
    refine (like_functionItems htidy debug m index hnames.1 tally).bind ?_
    rintro ⟨items, tally⟩ ⟨items', _⟩ ⟨hitems, rfl⟩
    refine (ih (index + 1) _ hnames.2).bind ?_
    rintro ⟨more, tally⟩ ⟨more', _⟩ ⟨hmore, rfl⟩
    exact .pure ⟨List.rel_append hitems hmore, rfl⟩

theorem like_moduleFunctions (m : Module) (hnames : ∀ f ∈ m.functions, OneLineNames f.body) :
    Agrees (List.Forall₂ Item.Like) (moduleFunctions env m)
      (moduleFunctions (env.withDebug debug) m) := by
  refine (like_functionsItems htidy debug m m.functions _ {} hnames).bind ?_
  rintro ⟨items, tally⟩ ⟨items', _⟩ ⟨hitems, rfl⟩
  exact .after (.record _ _) (.pure hitems)

theorem like_initialItem (use : InitialUse) {code : List Instr} (hnames : OneLineNames code) :
    Agrees Item.Like (initialItem env use code) (initialItem (env.withDebug debug) use code) :=
  ((like_lowerInitializer htidy debug use.id hnames).within _).bind fun _ _ h =>
    .pure (.initial use h)

theorem like_globalItems (globals : List Global) (slot : Nat)
    (hnames : ∀ g ∈ globals, OneLineNames g.init) :
    Agrees (List.Forall₂ Item.Like) (globalItems env slot globals)
      (globalItems (env.withDebug debug) slot globals) := by
  induction globals generalizing slot with
  | nil => exact .pure .nil
  | cons g rest ih =>
    rw [List.forall_mem_cons] at hnames
    exact (like_initialItem htidy debug _ hnames.1).bind fun _ _ hitem =>
      (ih _ hnames.2).bind fun _ _ hmore => .pure (.cons hitem hmore)

omit htidy in
theorem like_refl (items : List Item) : List.Forall₂ Item.Like items items :=
  List.forall₂_same.2 fun item _ => .same item

theorem like_elementItems {e : ElementSegment} (hnames : OneLineNames e.offset) :
    Agrees (List.Forall₂ Item.Like) (elementItems env e) (elementItems (env.withDebug debug) e) := by
  unfold elementItems
  simp only [registry_withDebug]
  cases env.registry.table? e.table with
  | none => exact .after (yields_logAll _) (.pure (like_refl _))
  | some handle =>
    exact .after (yields_logAll _) ((like_initialItem htidy debug _ hnames).bind fun _ _ hitem =>
      .pure (List.rel_append (like_refl _) (.cons hitem .nil)))

theorem like_dataItems {d : DataSegment} (hnames : OneLineNames d.offset) :
    Agrees (List.Forall₂ Item.Like) (dataItems env d) (dataItems (env.withDebug debug) d) := by
  unfold dataItems
  simp only [registry_withDebug]
  cases env.registry.memory? d.memory with
  | none => exact .after (yields_logAll _) (.pure (like_refl _))
  | some handle =>
    exact (like_initialItem htidy debug _ hnames).bind fun _ _ hitem => .pure (.cons hitem .nil)

omit htidy in
theorem like_flatten {parts parts' : List (List Item)}
    (h : List.Forall₂ (List.Forall₂ Item.Like) parts parts') :
    List.Forall₂ Item.Like parts.flatten parts'.flatten := by
  induction h with
  | nil => exact .nil
  | cons hone _ ih => exact List.rel_append hone ih

theorem like_moduleInitial (m : Module) (hglobals : ∀ g ∈ m.globals, OneLineNames g.init)
    (helements : ∀ e ∈ m.elements, OneLineNames e.offset)
    (hdata : ∀ d ∈ m.dataSegments, OneLineNames d.offset) :
    Agrees (List.Forall₂ Item.Like) (moduleInitial env m)
      (moduleInitial (env.withDebug debug) m) := by
  refine (like_globalItems htidy debug m.globals _ hglobals).bind fun _ _ hg => ?_
  refine (Agrees.mapM m.elements fun e he =>
    like_elementItems htidy debug (helements e he)).bind fun _ _ he => ?_
  refine (Agrees.mapM m.dataSegments fun d hd =>
    like_dataItems htidy debug (hdata d hd)).bind fun _ _ hd => ?_
  exact .pure (List.rel_append (List.rel_append hg (like_flatten he)) (like_flatten hd))

end

/-- The chunks of a module are the same but for comments. -/
theorem like_lowerModule (options : Options) (debug : Debug) (m : Module)
    (hnames : ∀ name ∈ m.unsupportedInstructions, OneLine name) :
    Agrees (fun c c' => c.name = c'.name ∧ List.Forall₂ Item.Like c.items c'.items)
      (lowerModule options m) (lowerModule { options with debug } m) := by
  have hall : ∀ code ∈ m.functions.map Function.body ++ m.globals.map Global.init ++
      m.elements.map ElementSegment.offset ++ m.dataSegments.map DataSegment.offset,
      OneLineNames code :=
    fun code hcode name hname => hnames name (List.mem_flatMap.2 ⟨code, hcode, hname⟩)
  simp only [List.forall_mem_append, List.forall_mem_map] at hall
  obtain ⟨⟨⟨hfunctions, hglobals⟩, helements⟩, hdata⟩ := hall
  have htidy : (m.env options).registry.Tidy := Registry.tidy_ofModule m
  have hitems : Agrees (List.Forall₂ Item.Like) (moduleItems options m)
      (moduleItems { options with debug } m) := by
    refine .after (yields_logAll _) ?_
    refine (like_moduleFunctions htidy debug m hfunctions).bind fun functions functions' hf => ?_
    refine (like_moduleInitial htidy debug m hglobals helements hdata).bind fun _ _ hi => ?_
    refine .after (yields_logAll _) (.pure ?_)
    exact List.rel_append (List.rel_append (List.rel_append (like_refl _) hf) hi) (like_refl _)
  exact .within _ (hitems.bind fun _ _ h => .pure ⟨rfl, h⟩)

/-! ## Flags -/

/-- The flags that switch debug comments on. -/
def Flag.debugging : List Flag := [debugRegisters, debugStack, debugInstructions]

theorem Options.enable_debugging {flags : List Flag} (h : flags ⊆ Flag.debugging)
    (options : Options) : ∃ debug, flags.foldl enable options = { options with debug } := by
  induction flags generalizing options with
  | nil => exact ⟨options.debug, rfl⟩
  | cons flag rest ih =>
    rw [List.cons_subset] at h
    obtain ⟨debug, hrest⟩ := ih h.2 (options.enable flag)
    refine ⟨debug, hrest.trans ?_⟩
    have hflag := h.1
    simp only [Flag.debugging, List.mem_cons, List.not_mem_nil, or_false] at hflag
    obtain rfl | rfl | rfl := hflag <;> rfl

/-- **Debug flags are inert.** Whichever of them are switched on, a module fails with the same
failure, or becomes a text that is the same without its comment lines, if the names of its
unsupported instructions hold no line break. Each function and each initializer is refused alike, or
written with the same parameters, locals, results, value and warnings. -/
theorem program_debug {flags : List Flag} (hflags : flags ⊆ Flag.debugging) (options : Options)
    {m : Module} (hnames : ∀ name ∈ m.unsupportedInstructions, OneLine name) :
    let options' := flags.foldl Options.enable options
    Agrees (fun text text' => withoutComments text = withoutComments text')
      (programOfModule options m) (programOfModule options' m) ∧
    (∀ id name function, Agrees Lowered.SameShape (lowerFunction (m.env options) id name function)
      (lowerFunction (m.env options') id name function)) ∧
    ∀ id code, Agrees Lowered.SameShape (lowerInitializer (m.env options) id code)
      (lowerInitializer (m.env options') id code) := by
  intro options'
  obtain ⟨debug, hdebug⟩ := options.enable_debugging hflags
  have hoptions : options' = { options with debug } := hdebug
  rw [hoptions]
  refine ⟨?_, fun id name function => ?_, fun id code => ?_⟩
  · exact (like_lowerModule options debug m hnames).bind fun _ _ h =>
      .pure (withoutComments_text h.1 h.2)
  · exact (agrees_lowerFunction (m.env options) debug id name function).imp fun _ _ =>
      Lowered.sameShape_of_mute
  · exact (agrees_lowerInitializer (m.env options) debug id code).imp fun _ _ =>
      Lowered.sameShape_of_mute

/-- A function with a branch and an unsupported instruction. -/
def commentedFunction : Function where
  name := some "f"
  type := 0
  locals := [.i64]
  body := [.block 0 none [.leaf 1 (.localGet 0), .leaf 2 (.brIf 0), .leaf 3 (.unsupported "v128.not")],
    .leaf 4 (.localGet 0)]

def commented : Module where
  types := [⟨[.i32], [.i32]⟩]
  fields := [.function commentedFunction]

/-- All debug flags together add fourteen lines to the function. -/
theorem program_debug_commented :
    let options' := Flag.debugging.foldl Options.enable {}
    let written (options : Options) :=
      (lowerFunction (commented.env options) "f" "f" commentedFunction).outcome.1.toOption
    (written {}).map (fun f => f.lines.length) = some 7 ∧
    (written options').map (fun f => f.lines.length) = some 21 ∧
    Agrees (fun text text' => withoutComments text = withoutComments text')
      (programOfModule {} commented) (programOfModule options' commented) := by
  have hnames : ∀ name ∈ commented.unsupportedInstructions, OneLine name :=
    List.forall_mem_singleton.2 (.ofList (by decide))
  have hprogram := program_debug (List.Subset.refl Flag.debugging) {} hnames
  refine ⟨?_, ?_, hprogram.1⟩
  · decide +kernel
  · decide +kernel

end Moonstack
