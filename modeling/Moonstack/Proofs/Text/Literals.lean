import Mathlib.Tactic.SplitIfs
import Moonstack.Proofs.Text.Lexical
import Moonstack.Text.Writer

/-!
# Literals read back

A reader of string literals in the bytes of a chunk (`Quoted.read`): quotes close a literal, a line
break is an error, and a backslash begins an escape, of which a numeric one takes up to three
digits. It reads each literal that `Quoted.string` and `Quoted.bytes` write to its end and no
further, whatever follows, and gets the bytes that were written (`literal_string_bytes`).

Pieces of a literal are read one after the other, since what a piece stands for does not depend on
what follows it (`Reads`). For numeric escapes that is due to their three digits.
-/

namespace Moonstack

variable {b quote : UInt8} {c : Char} {cs : List Char}

namespace Quoted

def utf8 (text : String) : List UInt8 := text.toUTF8.data.toList

def isDigit (b : UInt8) : Bool := '0'.toUInt8 ≤ b && b ≤ '9'.toUInt8

/-- The digits of a numeric escape at the start of the input: at most three. -/
def digits (input : List UInt8) : List UInt8 := (input.take 3).takeWhile isDigit

def value (ds : List UInt8) : Nat := ds.foldl (fun n d => 10 * n + (d.toNat - '0'.toNat)) 0

/-- What follows a backslash: the byte that the escape stands for, and the rest. -/
def readEscape (input : List UInt8) : Option (UInt8 × List UInt8) :=
  if input.head? = some 'n'.toUInt8 then some ('\n'.toUInt8, input.tail)
  else if input.head? = some 'r'.toUInt8 then some ('\r'.toUInt8, input.tail)
  else if input.head? = some '"'.toUInt8 then some ('"'.toUInt8, input.tail)
  else if input.head? = some '\''.toUInt8 then some ('\''.toUInt8, input.tail)
  else if input.head? = some '\\'.toUInt8 then some ('\\'.toUInt8, input.tail)
  else if digits input ≠ [] ∧ value (digits input) < UInt8.size then
    some ((value (digits input)).toUInt8, input.drop (digits input).length)
  else none

theorem length_readEscape {input rest : List UInt8} (h : readEscape input = some (b, rest)) :
    rest.length ≤ input.length := by
  unfold readEscape at h
  grind

/-- What follows an opening quote: the bytes up to the closing one, and the rest. -/
def readBody (quote : UInt8) (input : List UInt8) : Option (List UInt8 × List UInt8) :=
  match input with
  | [] => none
  | b :: rest =>
    if b = quote then some ([], rest)
    else if b = '\n'.toUInt8 ∨ b = '\r'.toUInt8 then none
    else if b = '\\'.toUInt8 then
      match _h : readEscape rest with
      | none => none
      | some (c, after) => (readBody quote after).map fun r => (c :: r.1, r.2)
    else (readBody quote rest).map fun r => (b :: r.1, r.2)
termination_by input.length
decreasing_by
  · exact Nat.lt_succ_of_le (length_readEscape _h)
  · exact Nat.lt_succ_self _

/-- Reads a literal in the given quotes: its bytes, and the rest. -/
def read (quote : UInt8) (input : List UInt8) : Option (List UInt8 × List UInt8) :=
  if input.head? = some quote then readBody quote input.tail else none

/-- Between the quotes, the text stands for the bytes, whatever follows. -/
def Reads (quote : UInt8) (text bytes : List UInt8) : Prop :=
  ∀ rest, readBody quote (text ++ rest) = (readBody quote rest).map fun r => (bytes ++ r.1, r.2)

theorem reads_nil (quote : UInt8) : Reads quote [] [] := by
  intro rest
  simp

theorem Reads.append {quote : UInt8} {t t' bs bs' : List UInt8} (h : Reads quote t bs)
    (h' : Reads quote t' bs') : Reads quote (t ++ t') (bs ++ bs') := by
  intro rest
  rw [List.append_assoc, h, h', Option.map_map]
  simp [Function.comp_def]

theorem reads_flatMap {α : Type} {f g : α → List UInt8} (h : ∀ a, Reads quote (f a) (g a))
    (xs : List α) : Reads quote (xs.flatMap f) (xs.flatMap g) := by
  induction xs with
  | nil => exact reads_nil quote
  | cons x xs ih => exact (h x).append ih

/-- A byte that neither ends a literal nor begins an escape. -/
def isVerbatim (quote b : UInt8) : Bool :=
  b ≠ quote && b ≠ '\n'.toUInt8 && b ≠ '\r'.toUInt8 && b ≠ '\\'.toUInt8

theorem reads_verbatim {bs : List UInt8} (h : ∀ b ∈ bs, isVerbatim quote b = true) :
    Reads quote bs bs := by
  induction bs with
  | nil => exact reads_nil quote
  | cons b bs ih =>
    rw [List.forall_mem_cons] at h
    obtain ⟨hb, hbs⟩ := h
    simp only [isVerbatim, Bool.and_eq_true, decide_eq_true_eq] at hb
    obtain ⟨⟨⟨hq, hn⟩, hr⟩, he⟩ := hb
    have hone : Reads quote [b] [b] := by
      intro rest
      rw [List.cons_append, readBody, if_neg hq, if_neg (by simp [hn, hr]), if_neg he]
      rfl
    exact hone.append (ih hbs)

theorem reads_escape {cs : List UInt8} (hq : quote ≠ '\\'.toUInt8)
    (h : ∀ rest, readEscape (cs ++ rest) = some (b, rest)) :
    Reads quote ('\\'.toUInt8 :: cs) [b] := by
  intro rest
  rw [List.cons_append, readBody, if_neg (Ne.symm hq), if_neg (by decide), if_pos rfl]
  split <;> simp_all

/-- Of digits, an escape takes the first three. -/
theorem readEscape_digits {a c : UInt8} (ha : isDigit a = true) (hb : isDigit b = true)
    (hc : isDigit c = true) (hvalue : value [a, b, c] < UInt8.size) (rest : List UInt8) :
    readEscape ([a, b, c] ++ rest) = some ((value [a, b, c]).toUInt8, rest) := by
  have hdigits : digits ([a, b, c] ++ rest) = [a, b, c] := by simp [digits, ha, hb, hc]
  have hletter {l : Char} (hl : isDigit l.toUInt8 = false) :
      ¬ ([a, b, c] ++ rest).head? = some l.toUInt8 := by
    intro h
    rw [Option.some.inj h, hl] at ha
    exact Bool.noConfusion ha
  unfold readEscape
  rw [if_neg (hletter (by decide)), if_neg (hletter (by decide)), if_neg (hletter (by decide)),
    if_neg (hletter (by decide)), if_neg (hletter (by decide)), hdigits, if_pos ⟨by simp, hvalue⟩]
  rfl

theorem utf8EncodeChar_ascii (h : c.toNat < 128) : String.utf8EncodeChar c = [c.toUInt8] := by
  have hle : c.val.toNat ≤ 127 := Nat.le_of_lt_succ h
  rw [String.utf8EncodeChar, if_pos hle]
  rfl

theorem reads_numeric (hq : quote ≠ '\\'.toUInt8) {n : Nat} (hn : n < 256) :
    Reads quote ((numeric n).flatMap String.utf8EncodeChar) [n.toUInt8] := by
  have hascii (n : Nat) : String.utf8EncodeChar (digit n) = [(digit n).toUInt8] := by
    have hall : ∀ k < 10, (Char.ofNat (48 + k)).toNat < 128 := by decide
    exact utf8EncodeChar_ascii (hall _ (Nat.mod_lt n (by decide)))
  have hdigit (n : Nat) : isDigit (digit n).toUInt8 = true := by
    have hall : ∀ k < 10, isDigit (Char.ofNat (48 + k)).toUInt8 = true := by decide
    exact hall _ (Nat.mod_lt n (by decide))
  have hvalue : ∀ n < 256, value [(digit (n / 100)).toUInt8, (digit (n / 10)).toUInt8,
      (digit n).toUInt8] = n := by decide +kernel
  have htext : (numeric n).flatMap String.utf8EncodeChar = '\\'.toUInt8 ::
      [(digit (n / 100)).toUInt8, (digit (n / 10)).toUInt8, (digit n).toUInt8] := by
    simp only [numeric, List.flatMap_cons, hascii, List.flatMap_nil]
    rfl
  rw [htext]
  refine reads_escape hq fun rest => ?_
  rw [readEscape_digits (hdigit _) (hdigit _) (hdigit _) ((hvalue n hn).symm ▸ hn), hvalue n hn]

/-- Only an ASCII character has a byte below 128, its own code. -/
theorem toNat_of_mem_utf8EncodeChar (hb : b ∈ String.utf8EncodeChar c) :
    b.toNat = c.toNat ∨ 128 ≤ b.toNat := by
  unfold String.utf8EncodeChar at hb
  change b.toNat = c.val.toNat ∨ 128 ≤ b.toNat
  grind [UInt8.toNat_ofNat']

theorem ne_toUInt8 {d : Char} (hb : b ∈ String.utf8EncodeChar c) (hne : c ≠ d)
    (hd : d.toNat < 128) : b ≠ d.toUInt8 := by
  rintro rfl
  have hvalue : d.toUInt8.toNat = d.toNat :=
    (UInt32.toNat_toUInt8 d.val).trans (Nat.mod_eq_of_lt (Nat.lt_trans hd (by decide)))
  obtain h | h := toNat_of_mem_utf8EncodeChar hb
  · exact hne (Char.toNat_inj.1 (h.symm.trans hvalue))
  · omega

theorem reads_character (c : Char) : Reads '"'.toUInt8
    ((character c).flatMap String.utf8EncodeChar) (String.utf8EncodeChar c) := by
  unfold character
  split_ifs with hq he hn hr hcontrol
  · subst hq
    exact reads_escape (by decide) fun _ => rfl
  · subst he
    exact reads_escape (by decide) fun _ => rfl
  · subst hn
    exact reads_escape (by decide) fun _ => rfl
  · subst hr
    exact reads_escape (by decide) fun _ => rfl
  · rw [utf8EncodeChar_ascii (c := c) (by omega)]
    exact reads_numeric (by decide) (by omega)
  · rw [List.flatMap_singleton]
    refine reads_verbatim fun b hb => ?_
    simp [isVerbatim, ne_toUInt8 hb hq (by decide), ne_toUInt8 hb he (by decide),
      ne_toUInt8 hb hn (by decide), ne_toUInt8 hb hr (by decide)]

theorem reads_byte (b : UInt8) :
    Reads '\''.toUInt8 ((byte b).flatMap String.utf8EncodeChar) [b] := by
  have hself : b.toNat.toUInt8 = b := UInt8.ofNat_toNat
  unfold byte
  split_ifs with hq he hprintable
  · subst hq
    exact reads_escape (by decide) fun _ => rfl
  · subst he
    exact reads_escape (by decide) fun _ => rfl
  · have hlt : b.toNat < 127 := Nat.lt_succ_of_le (UInt8.le_iff_toNat_le.1 hprintable.2)
    have hall : ∀ n < 127, (Char.ofNat n).toNat < 128 ∧ (Char.ofNat n).toUInt8 = n.toUInt8 := by
      decide
    obtain ⟨hascii, heq⟩ := hall _ hlt
    have hbreak {c : Char} (hc : ¬ 32 ≤ c.toUInt8) : b ≠ c.toUInt8 := by
      rintro rfl
      exact hc hprintable.1
    have hb : isVerbatim '\''.toUInt8 b = true := by
      simp only [isVerbatim, Bool.and_eq_true, decide_eq_true_eq]
      exact ⟨⟨⟨hq, hbreak (by decide)⟩, hbreak (by decide)⟩, he⟩
    rw [List.flatMap_singleton, utf8EncodeChar_ascii hascii, heq, hself]
    exact reads_verbatim (by simpa using hb)
  · have hread := reads_numeric (by decide : '\''.toUInt8 ≠ '\\'.toUInt8) b.toNat_lt
    rwa [hself] at hread

theorem utf8_eq (text : String) : utf8 text = text.toList.flatMap String.utf8EncodeChar := by
  rw [utf8, String.toUTF8_eq_toByteArray, ← String.utf8Encode_toList, List.utf8Encode]
  simp

theorem read_of_reads {q : Char} {bytes : List UInt8} (hq : q.toNat < 128)
    (h : Reads q.toUInt8 (cs.flatMap String.utf8EncodeChar) bytes) (rest : List UInt8) :
    read q.toUInt8 (utf8 (String.ofList (q :: cs ++ [q])) ++ rest) = some (bytes, rest) := by
  have hclosed : readBody q.toUInt8 (q.toUInt8 :: rest) = some ([], rest) := by
    rw [readBody, if_pos rfl]
  have htext : utf8 (String.ofList (q :: cs ++ [q])) ++ rest =
      q.toUInt8 :: (cs.flatMap String.utf8EncodeChar ++ q.toUInt8 :: rest) := by
    simp [utf8_eq, utf8EncodeChar_ascii hq]
  rw [htext, read, List.head?_cons, if_pos rfl, List.tail_cons, h, hclosed]
  simp

theorem splitLines_append (h : ∀ c ∈ cs, Scan.isBreak c = false) (current rest : List Char) :
    splitLines current (cs ++ rest) = splitLines (cs.reverse ++ current) rest := by
  induction cs generalizing current with
  | nil => rfl
  | cons c cs ih =>
    rw [List.forall_mem_cons] at h
    have hc : c ≠ '\n' := by
      rintro rfl
      exact absurd h.1 (by decide)
    rw [List.cons_append, splitLines, if_neg hc, ih h.2]
    simp

theorem withoutReturn_append (hc : c ≠ '\r') (cs ds : List Char) :
    ∃ es, withoutReturn (cs ++ c :: ds) = cs ++ c :: es := by
  unfold withoutReturn
  split
  · rename_i rest hr
    rw [List.reverse_append, List.reverse_cons, List.append_assoc] at hr
    obtain ⟨-, hr⟩ | ⟨es, -, rfl⟩ := List.append_eq_cons_iff.1 hr
    · exact absurd (List.cons.inj hr).1 hc
    · exact ⟨es.reverse, by simp⟩
  · exact ⟨ds, rfl⟩

/-- A line that has been begun is written with what it begins with. -/
theorem splitLines_begun (hc : c ≠ '\r') (cs tail rest : List Char) :
    ∃ back more, splitLines (tail ++ c :: cs) rest = ((c :: cs).reverse ++ back) :: more := by
  induction rest generalizing tail with
  | nil => exact ⟨tail.reverse, [], by simp [splitLines]⟩
  | cons d rest ih =>
    rw [splitLines]
    split
    · obtain ⟨back, hback⟩ := withoutReturn_append hc cs.reverse tail.reverse
      exact ⟨back, splitLines [] rest, by simpa using hback⟩
    · exact ih (d :: tail)

theorem splitLines_whole (h : ∀ d ∈ cs ++ [c], Scan.isBreak d = false)
    (current before after : List Char) : ∃ lines front back more,
      splitLines current (before ++ (cs ++ [c]) ++ after) =
        lines ++ (front ++ (cs ++ [c]) ++ back) :: more := by
  induction before generalizing current with
  | nil =>
    have hc : c ≠ '\r' := by
      rintro rfl
      exact absurd (h '\r' (by simp)) (by decide)
    obtain ⟨back, more, hbegun⟩ := splitLines_begun hc (cs.reverse ++ current) [] after
    refine ⟨[], current.reverse, back, more, ?_⟩
    rw [List.nil_append, splitLines_append h]
    simpa using hbegun
  | cons d before ih =>
    rw [List.cons_append, List.cons_append, splitLines]
    split
    · obtain ⟨lines, front, back, more, hlines⟩ := ih []
      exact ⟨_ :: lines, front, back, more, by rw [hlines, List.cons_append]⟩
    · exact ih (d :: current)

/-- A literal in the given quotes that stands for bytes: it is read to its end, whatever follows,
and stays whole where a text that holds it is written line by line. -/
structure Literal (quote : Char) (text : String) (bytes : List UInt8) : Prop where
  reads : ∀ rest, read quote.toUInt8 (utf8 text ++ rest) = some (bytes, rest)
  oneLine : OneLine text
  whole : ∀ before after, ∃ lines front back more, ∀ w : Writer,
    w.block (before ++ text ++ after) = w.lines (lines ++ (front ++ text ++ back) :: more)

theorem literal_of_reads {q : Char} {bytes : List UInt8} (hq : q.toNat < 128)
    (h : Reads q.toUInt8 (cs.flatMap String.utf8EncodeChar) bytes)
    (hone : OneLine (String.ofList (q :: cs ++ [q]))) :
    Literal q (String.ofList (q :: cs ++ [q])) bytes where
  reads := read_of_reads hq h
  oneLine := hone
  whole before after := by
    rw [OneLine, String.toList_ofList] at hone
    obtain ⟨lines, front, back, more, hlines⟩ := splitLines_whole hone [] before.toList after.toList
    refine ⟨lines.map String.ofList, .ofList front, .ofList back, more.map String.ofList,
      fun w => ?_⟩
    simp only [Writer.block, linesOf, String.toList_append, String.toList_ofList, hlines,
      List.map_append, List.map_cons, String.ofList_append]

/-- **Literals read back.** What `Quoted.string` writes is a literal for the bytes of the text, and
what `Quoted.bytes` writes is one for these bytes. -/
theorem literal_string_bytes : (∀ text, Literal '"' (string text) (utf8 text)) ∧
    ∀ bs, Literal '\'' (bytes bs) bs := by
  constructor
  · intro text
    refine literal_of_reads (by decide) ?_ (neutral_string text).oneLine
    rw [utf8_eq, List.flatMap_assoc]
    exact reads_flatMap reads_character _
  · intro bs
    refine literal_of_reads (by decide) ?_ (neutral_bytes bs).oneLine
    rw [List.flatMap_assoc]
    have hreads := reads_flatMap reads_byte bs
    rwa [List.flatMap_singleton'] at hreads

end Quoted

end Moonstack
