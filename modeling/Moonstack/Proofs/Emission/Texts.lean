import Moonstack.Proofs.Emission.Functions
import Moonstack.Proofs.Emission.Passes

/-!
# The text of a function

The text of a function is its lines, the header first, each behind its indentation
(`Lowered.text_eq`); if none of them holds a line break, they are the lines of the text
(`Lowered.linesOf_text`).

`Emit.function` is the computation that writes a function, and `emitted_lowerFunction` says that what
`lowerFunction` gives is what this computation writes.
-/

namespace Moonstack

/-- A line behind its indentation. -/
def Placed.row (p : Placed) : String := indentation p.indent ++ p.line.text

def joinLines (rows : List String) : String := String.join (rows.map (· ++ "\n"))

theorem joinLines_cons (row : String) (rows : List String) :
    joinLines (row :: rows) = row ++ "\n" ++ joinLines rows := by
  simp [joinLines, String.join_cons]

theorem Line.text_ne_empty (l : Line) : l.text ≠ "" := by
  cases l with
  | stmt s =>
    cases s with
    | ret values => cases values <;> simp [Line.text, Stmt.text]
    | _ => simp [Line.text, Stmt.text]
  | arm first c s => cases first <;> simp [Line.text]
  | _ => simp [Line.text]

theorem Lowered.writeLine_eq (w : Writer) (h : w.atLineStart = true) (p : Placed) :
    writeLine w p = ⟨w.text ++ (p.row ++ "\n"), p.indent, true⟩ := by
  have hne : p.line.text.isEmpty = false := by
    simpa using p.line.text_ne_empty
  simp [writeLine, Writer.line, Writer.write, Writer.newline, hne, h, Placed.row,
    String.append_assoc, String.push_eq_append]

theorem Lowered.foldl_writeLine (lines : List Placed) (w : Writer) (h : w.atLineStart = true) :
    (lines.foldl writeLine w).text = w.text ++ joinLines (lines.map Placed.row) := by
  induction lines generalizing w with
  | nil => simp [joinLines]
  | cons p rest ih =>
    rw [List.foldl_cons, writeLine_eq w h, ih _ rfl, List.map_cons, joinLines_cons]
    simp only [String.append_assoc]

/-- A text is cut at the end of a part of it by the number of bytes of this part. -/
theorem splitBytes_append (front back : String) :
    splitBytes front.utf8ByteSize (front ++ back).toList = (front.toList, back.toList) := by
  obtain ⟨cs, rfl⟩ : ∃ cs, front = String.ofList cs := ⟨front.toList, by simp⟩
  rw [String.toList_append, String.toList_ofList]
  induction cs with
  | nil =>
    cases back.toList with
    | nil => rfl
    | cons c cs => simp [splitBytes, Nat.ne_of_gt c.utf8Size_pos]
  | cons c cs ih =>
    rw [String.ofList_cons, String.utf8ByteSize_append, String.utf8ByteSize_singleton]
    simp [splitBytes, ih]

theorem joinLines_append (rows more : List String) :
    joinLines (rows ++ more) = joinLines rows ++ joinLines more := by
  simp [joinLines, String.join_append]

/-- The text of a function is its lines, one after the other. -/
theorem Lowered.text_eq (f : Lowered) :
    f.text = joinLines ((f.header ++ f.lines).map Placed.row) := by
  have hzero : indentation 0 = "" := rfl
  have hbody := foldl_writeLine f.lines {} rfl
  have hheader : (f.header.map fun p => indentation p.indent ++ p.line.text).map
      (fun text => indentation 0 ++ text ++ "\n") = (f.header.map Placed.row).map (· ++ "\n") := by
    simp [hzero, Placed.row]
  rw [List.map_append, joinLines_append]
  unfold text
  simp only [Writer.insertLines, Writer.mark]
  rw [hbody, splitBytes_append]
  simp only [hheader, joinLines, String.ofList_toList]
  simp

theorem withoutReturn_of_oneLine {cs : List Char} (h : ∀ c ∈ cs, Scan.isBreak c = false) :
    withoutReturn cs = cs := by
  unfold withoutReturn
  split
  · rename_i rest hr
    have hmem : '\r' ∈ cs := by
      rw [← List.mem_reverse, hr]
      exact List.mem_cons_self
    exact absurd (h _ hmem) (by decide)
  · rfl

theorem splitLines_row (current row rest : List Char)
    (h : ∀ c ∈ current.reverse ++ row, Scan.isBreak c = false) :
    splitLines current (row ++ '\n' :: rest) = (current.reverse ++ row) :: splitLines [] rest := by
  induction row generalizing current with
  | nil =>
    rw [List.append_nil] at h ⊢
    simp [splitLines, withoutReturn_of_oneLine h]
  | cons c row ih =>
    have hc : c ≠ '\n' := by
      rintro rfl
      exact absurd (h '\n' (by simp)) (by decide)
    rw [List.cons_append, splitLines, if_neg hc, ih (c :: current) (by simpa using h)]
    simp

theorem linesOf_joinLines {rows : List String} (h : ∀ row ∈ rows, OneLine row) :
    linesOf (joinLines rows) = rows := by
  induction rows with
  | nil => rfl
  | cons row rest ih =>
    have hrow := splitLines_row [] row.toList (joinLines rest).toList
      (h row List.mem_cons_self)
    have hrest := ih fun r hr => h r (List.mem_cons_of_mem _ hr)
    rw [linesOf] at hrest ⊢
    have htext : (joinLines (row :: rest)).toList =
        row.toList ++ '\n' :: (joinLines rest).toList := by
      simp [joinLines_cons]
    rw [htext, hrow]
    simp [hrest]

/-- The lines of the text are the lines that were written, if these are lines. -/
theorem Lowered.linesOf_text (f : Lowered) (h : ∀ p ∈ f.header ++ f.lines, OneLine p.row) :
    linesOf f.text = (f.header ++ f.lines).map Placed.row := by
  rw [text_eq]
  apply linesOf_joinLines
  intro row hrow
  obtain ⟨p, hp, rfl⟩ := List.mem_map.1 hrow
  exact h p hp

open Logged

theorem Frame.deaf_recordLocals : Deaf recordLocals := by
  intro f
  unfold recordLocals
  simp only [apply_ite Frame.mute]
  rfl

theorem Emit.holds_recordLocals {d : Discipline} {n : Nat} :
    d.Holds n (change recordLocals) n Any := by
  refine holds_change (fun f => ?_) (fun {f} hf => ?_) Frame.deaf_recordLocals <;>
    obtain ⟨log, h⟩ := f.recordLocals_eq <;> rw [h]
  · exact .of_locals rfl rfl Nat.le.refl
  · exact hf.congr rfl rfl

theorem Emit.holds_function {d : Discipline} {env : Env} (hd : d.Full)
    (henv : d.ok → env.registry.Tidy) (count : Nat) {code : List Instr}
    (hnames : d.ok → ∀ name ∈ Instr.bodyUnsupportedNames code, OneLine name) (n : Nat) :
    d.Holds n (Emit.function env count code) n Any := by
  have hreport : d.Holds n (change fun f =>
      f.record .debug s!"{f.clock} instructions, {f.registers.slotCount} registers") n Any :=
    holds_change (fun _ => .of_locals rfl rfl Nat.le.refl) (fun h => h.congr rfl rfl) fun _ => rfl
  exact (holds_params count).bind fun _ _ => (holds_body hd henv code n hnames).bind fun _ _ =>
    holds_finishFunction.bind fun _ _ => holds_recordLocals.bind fun _ _ =>
    hreport.bind fun _ _ => holds_pure trivial

/-- A function that is written is the emission of its body. -/
theorem emitted_lowerFunction {env : Env} {id name : String} {function : Function}
    {lowered : Lowered} (h : (lowerFunction env id name function).outcome.1 = .ok lowered) :
    ∃ signature params e, env.registry.types[function.type]? = some signature ∧
      Emit.function env signature.params.length function.body
        { frame := function.startFrame env id signature } =
        .ok params e ∧ lowered = .ofEmission signature params e := by
  cases hs : env.registry.types[function.type]? with
  | none =>
    rw [(unknown_lowerFunction id name hs).outcome] at h
    cases h
  | some signature =>
    rw [(yields_function id name hs).outcome] at h
    obtain ⟨_, -, h⟩ := Emit.ok_of_except h
    obtain ⟨r, hr, h⟩ := Emit.ok_of_except h
    cases h
    exact ⟨signature, r.1, r.2, rfl, Emit.ok_of_result hr, rfl⟩

end Moonstack
