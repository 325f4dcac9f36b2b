import Moonstack.Proofs.Chunk.Rows

/-!
# Inserting lines later

Lines that are put at a place of a text afterwards stand there as if they had been written when the
place was reached (`Writer.insertLines_performAll`), whatever was written in between. What an
operation adds depends on the indentation and on being at the start of a line only.
-/

namespace Moonstack

namespace Writer

/-- An operation on a text under construction. -/
inductive Step where
  | write (text : String)
  | line (text : String)
  | newline
  | raw (text : String)
  | block (text : String)
  | deeper
  | shallower

/-- Performs an operation. -/
def perform (w : Writer) : Step → Writer
  | .write text => w.write text
  | .line text => w.line text
  | .newline => w.newline
  | .raw text => w.raw text
  | .block text => w.block text
  | .deeper => w.deeper
  | .shallower => w.shallower

/-- Performs operations, one after the other. -/
def performAll (w : Writer) (steps : List Step) : Writer := steps.foldl perform w

/-- The second of two texts under construction has a part more, behind the given front. -/
structure Inserted (front part : String) (w v : Writer) : Prop where
  indent : v.indent = w.indent
  atLineStart : v.atLineStart = w.atLineStart
  text : ∃ back, w.text = front ++ back ∧ v.text = front ++ part ++ back

namespace Inserted

variable {front part : String} {w v : Writer} (h : Inserted front part w v)

include h

theorem add (text : String) (indent : Nat) (atLineStart : Bool) :
    Inserted front part ⟨w.text ++ text, indent, atLineStart⟩
      ⟨v.text ++ text, indent, atLineStart⟩ := by
  obtain ⟨back, hw, hv⟩ := h.text
  exact ⟨rfl, rfl, back ++ text, by rw [hw, String.append_assoc], by rw [hv, String.append_assoc]⟩

theorem write (text : String) : Inserted front part (w.write text) (v.write text) := by
  unfold Writer.write
  split
  · exact h
  · simp only [h.indent, h.atLineStart, String.append_assoc]
    exact h.add _ _ _

theorem newline : Inserted front part w.newline v.newline := by
  simp only [Writer.newline, h.indent, String.push_eq_append]
  exact h.add _ _ _

theorem lines (texts : List String) :
    Inserted front part (w.lines texts) (v.lines texts) := by
  induction texts generalizing w v with
  | nil => exact h
  | cons text rest ih => exact ih (h.write text).newline

/-- Every operation adds the same to both texts. -/
theorem perform (s : Step) : Inserted front part (w.perform s) (v.perform s) := by
  cases s with
  | write text => exact h.write text
  | line text => exact (h.write text).newline
  | newline => exact h.newline
  | raw text =>
    simp only [Writer.perform, raw, h.indent]
    exact h.add _ _ _
  | block text => exact h.lines _
  | deeper => exact { h with indent := congrArg (· + 1) h.indent }
  | shallower => exact { h with indent := congrArg (· - 1) h.indent }

theorem performAll (steps : List Step) :
    Inserted front part (w.performAll steps) (v.performAll steps) := by
  induction steps generalizing w v with
  | nil => exact h
  | cons s rest ih => exact ih (h.perform s)

end Inserted

/-- **Lines that are put at a place later stand there as if they had been written in time.** -/
theorem insertLines_performAll (w : Writer) (hstart : w.atLineStart = true) (texts : List String)
    (hne : ∀ text ∈ texts, text ≠ "") (steps : List Step) :
    (w.performAll steps).insertLines w.mark texts = (w.lines texts).performAll steps := by
  have hrows : (texts.map ((0, ·))).map (fun r => rowAt (w.indent + r.1) r.2) =
      texts.map (indentation w.indent ++ ·) := by
    rw [List.map_map]
    exact List.map_congr_left fun text ht => if_neg (by simpa using hne text ht)
  have h : Inserted w.text (joinLines (texts.map (indentation w.indent ++ ·))) w
      (w.lines texts) := by
    rw [lines_eq hstart, wrote, hrows]
    exact ⟨rfl, hstart.symm, "", by simp, by simp⟩
  obtain ⟨hindent, hatLineStart, back, hw, hv⟩ := h.performAll steps
  rw [insertLines, mark, hw, splitBytes_append]
  simp only [String.ofList_toList, ← hindent, ← hatLineStart]
  rw [joinLines, List.map_map] at hv
  exact congrArg (Writer.mk · _ _) hv.symm

/-- A declaration is put in front of a block that was written already. -/
theorem insertLines_performAll_declaration :
    let w : Writer := { text := "do\n", indent := 1 }
    let steps : List Step := [.write "é", .newline, .shallower, .raw "", .block "end\n"]
    w.atLineStart = true ∧
      (w.performAll steps).insertLines w.mark ["local a;"] =
        (w.lines ["local a;"]).performAll steps :=
  ⟨rfl, insertLines_performAll _ rfl _ (by simp) _⟩

end Writer

end Moonstack
