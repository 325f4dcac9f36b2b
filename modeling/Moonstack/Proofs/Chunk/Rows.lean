import Moonstack.Chunk.Assembly
import Moonstack.Proofs.Emission.Texts

/-!
# The rows of a chunk

The region of a module is written in rows, each a text at an indentation. `Item.rows` lists those of
an item: most items have one, and a definition or an initializer has more, among them the lines of
its code.

The text of code is cut into lines before it becomes part of the region, so there are two lists.
`Lowered.rows` has a row for each line of the code, and `linesOf f.text` is what the writer finds in
its text. The region is made of the second (`Chunk.text_eq`); the two are the same if no line of the
code holds a line break.
-/

namespace Moonstack

/-- A text at an indentation. An empty one stays empty. -/
def rowAt (indent : Nat) (text : String) : String :=
  if text.isEmpty then "" else indentation indent ++ text

/-- Rows one level deeper. -/
def inset (rows : List (Nat × String)) : List (Nat × String) := rows.map fun r => (r.1 + 1, r.2)

/-- The rows of a function: its lines, the header first. -/
def Lowered.rows (f : Lowered) : List String := (f.header ++ f.lines).map Placed.row

namespace Writer

/-- The writer behind rows, whose indentation is counted from its own. -/
def wrote (w : Writer) (rows : List (Nat × String)) : Writer :=
  ⟨w.text ++ joinLines (rows.map fun r => rowAt (w.indent + r.1) r.2), w.indent, true⟩

variable {w : Writer}

theorem wrote_nil (hw : w.atLineStart = true) : w.wrote [] = w := by
  obtain ⟨text, indent, start⟩ := w
  cases hw
  simp [wrote, joinLines]

theorem wrote_append (rows more : List (Nat × String)) :
    (w.wrote rows).wrote more = w.wrote (rows ++ more) := by
  simp [wrote, joinLines_append, String.append_assoc]

theorem line_eq (hw : w.atLineStart = true) (text : String) : w.line text = w.wrote [(0, text)] := by
  unfold line write newline wrote rowAt
  by_cases h : text = ""
  · simp [h, joinLines, String.push_eq_append]
  · simp [h, hw, joinLines, String.push_eq_append, String.append_assoc]

theorem lines_eq (hw : w.atLineStart = true) (texts : List String) :
    w.lines texts = w.wrote (texts.map ((0, ·))) := by
  induction texts generalizing w with
  | nil => exact (wrote_nil hw).symm
  | cons text rest ih =>
    change (w.line text).lines rest = _
    rw [line_eq hw, ih rfl, wrote_append]
    rfl

theorem wrote_line (rows : List (Nat × String)) (text : String) :
    (w.wrote rows).line text = w.wrote (rows ++ [(0, text)]) := by
  rw [line_eq rfl, wrote_append]

theorem deeper_line (rows : List (Nat × String)) (text : String) :
    (w.wrote rows).deeper.line text = (w.wrote rows).deeper.wrote [(0, text)] :=
  line_eq rfl text

theorem deeper_lines (rows : List (Nat × String)) (texts : List String) :
    (w.wrote rows).deeper.lines texts = (w.wrote rows).deeper.wrote (texts.map ((0, ·))) :=
  lines_eq rfl texts

/-- Rows that are written one level deeper. -/
theorem wrote_inset (rows more : List (Nat × String)) :
    ((w.wrote rows).deeper.wrote more).shallower = w.wrote (rows ++ inset more) := by
  have hmore : more.map (fun r => rowAt (w.indent + 1 + r.1) r.2) =
      (inset more).map fun r => rowAt (w.indent + r.1) r.2 := by
    simp [inset, Nat.add_assoc, Nat.add_comm 1]
  simp [wrote, deeper, shallower, hmore, joinLines_append, String.append_assoc]

end Writer

section

variable (code : Lowered → List String)

namespace Definition

/-- The rows that run a resumable body. -/
def trampolineRows (inner : String) (params : List String) (resultCount : Nat) :
    List (Nat × String) :=
  let returned := ", ".intercalate (resultNames (max resultCount 1))
  let args := ", ".intercalate (["setjmp_state", "setjmp_frame"] ++ params)
  [(0, "local setjmp_frame, setjmp_state = \x7b\x7d, nil"), (0, "::start::"),
    (0, s!"local ok, {returned} = pcall({inner}, {args})"), (0, "if not ok then"),
    (1, "if type(ret0) == \"table\" and ret0.frame == setjmp_frame then"),
    (2, "setjmp_state = ret0"), (2, "goto start"), (1, "end"), (1, "error(ret0, 0)"), (0, "end"),
    (0, if resultCount = 0 then "return"
      else "return " ++ ", ".intercalate (resultNames resultCount))]

def bodyRows (d : Definition) : List (Nat × String) :=
  match d.body with
  | .code f => (code f).map ((0, ·))
  | .stub statement => [(0, statement)]
  | .trampoline inner resultCount => trampolineRows inner d.params resultCount

def rows (d : Definition) : List (Nat × String) :=
  let params := ", ".intercalate d.params
  (0, s!"function {d.name}({params})") :: inset (d.bodyRows code) ++ [(0, "end")]

end Definition

def Item.rows : Item → List (Nat × String)
  | warning a => [(0, s!"-- WARNING: {a.message}")]
  | memory handle value => [(0, s!"local {handle} = {value.text}")]
  | table handle functions =>
    [(0, s!"local {handle.functions}, {handle.offset} = {functions.text}, 1")]
  | global slot value => [(0, s!"{(globalPlace slot).text} = {value.text}")]
  | define d => d.rows code
  | initial f use =>
    (0, "do") :: inset ((code f).map ((0, ·)) ++ [(0, use.statement (initialValue f))]) ++ [(0, "end")]
  | binding name target =>
    [(0, s!"{(Expr.index (.helper .exports) (.string name)).text} = {target.text}")]
  | call id => [(0, s!"{id}()")]

/-- The rows of a chunk, behind the prelude. -/
def Chunk.rows (c : Chunk) : List String :=
  let place := (Expr.member (.helper .modules) c.name).text
  let inner := (0, s!"local {Helper.exports.name} = \x7b\x7d") ::
    (0, s!"{place} = {Helper.exports.name}") :: c.items.flatMap (Item.rows code)
  let all : List (Nat × String) := (0, "do") :: inset inner ++ [(0, "end")]
  all.map fun r => rowAt r.1 r.2

end

/-- The region of a chunk, with the lines of each code as its text has them. -/
def Chunk.region (c : Chunk) : String := joinLines (c.rows fun f => linesOf f.text)

open Writer

section

variable {w : Writer} (hw : w.atLineStart = true)
include hw

theorem Definition.writeTrampoline_eq (inner : String) (params : List String) (resultCount : Nat) :
    writeTrampoline w inner params resultCount =
      w.wrote (trampolineRows inner params resultCount) := by
  unfold writeTrampoline
  simp only [lines_eq hw, deeper_line, deeper_lines, wrote_line, wrote_inset]
  simp [trampolineRows, inset]

theorem Definition.write_eq (d : Definition) :
    d.write w = w.wrote (d.rows fun f => linesOf f.text) := by
  unfold write rows bodyRows
  simp only [line_eq hw]
  cases d.body with
  | code f => simp only [block, deeper_lines, wrote_inset, wrote_line, List.singleton_append]
  | stub statement => simp only [deeper_line, wrote_inset, wrote_line, List.singleton_append]
  | trampoline inner resultCount =>
    simp only
    rw [writeTrampoline_eq rfl, wrote_inset, wrote_line, List.singleton_append]

theorem Item.write_eq (item : Item) :
    item.write w = w.wrote (item.rows fun f => linesOf f.text) := by
  cases item with
  | warning | memory | table | global => exact line_eq hw _
  | define d => exact d.write_eq hw
  | initial f use =>
    simp only [write, block, line_eq hw, deeper_lines, wrote_line, wrote_inset]
    rw [rows, List.singleton_append]
  | binding | call => exact line_eq hw _

theorem foldl_write (items : List Item) :
    items.foldl Item.write w = w.wrote (items.flatMap (Item.rows fun f => linesOf f.text)) := by
  induction items generalizing w with
  | nil => exact (wrote_nil hw).symm
  | cons item rest ih => rw [List.foldl_cons, Item.write_eq hw, ih rfl, wrote_append, List.flatMap_cons]

end

/-- **The text of a chunk** is the prelude, a line end and the region. -/
theorem Chunk.text_eq (c : Chunk) : c.text = Prelude.text ++ "\n" ++ c.region := by
  have hstart : (({} : Writer).raw Prelude.text).newline = ⟨Prelude.text ++ "\n", 0, true⟩ := by
    simp [raw, newline, String.push_eq_append]
  have hdo : ∀ w : Writer, w.atLineStart = true → w.line "do" = w.wrote [(0, "do")] :=
    fun w hw => line_eq hw _
  unfold text region rows
  simp only [hstart]
  rw [hdo _ rfl]
  simp only [deeper_line, wrote_line]
  rw [foldl_write rfl, wrote_append, wrote_inset, wrote_line]
  simp [wrote]

end Moonstack
