import Moonstack.Text.Identifier
import Moonstack.Text.Numeral
import Moonstack.Text.Quoted

/-!
# Lines as a lexer reads them

What comments, quotes and brackets make of a line of the generated code. Two dashes begin a comment:
one that `[[` opens ends at `]]`, and any other takes the rest of the line.

`Neutral` texts leave a lexer where it was, inside any brackets. They can be joined, and be put in
brackets. `Firm` texts can also take a minus sign. Numerals, quoted literals and identifiers are
neutral.
-/

namespace Moonstack

variable {c q : Char} {t : String} {cs : List Char}

/-- What a character of a line belongs to. -/
inductive Scan.Mode where
  | code
  /-- the code, after a dash -/
  | dash
  /-- a comment of which only the two dashes have been read -/
  | mark
  /-- a comment of which the two dashes and a bracket have been read -/
  | bracket
  /-- a comment that two brackets close -/
  | comment
  /-- the same, after a closing bracket -/
  | closing
  /-- a comment that takes the rest of the line -/
  | rest
  | quoted (q : Char)
  /-- the same, after a backslash -/
  | escaped (q : Char)
deriving DecidableEq

/-- How far a line has been read. -/
structure Scan where
  mode : Scan.Mode
  /-- the closing brackets that are due, innermost first -/
  due : List Char
deriving DecidableEq

namespace Scan

/-- Reads a character of the code. -/
def inCode (due : List Char) (c : Char) : Option Scan :=
  match c with
  | '(' => some ⟨.code, ')' :: due⟩
  | '[' => some ⟨.code, ']' :: due⟩
  | '\x7b' => some ⟨.code, '\x7d' :: due⟩
  | ')' | ']' | '\x7d' => if due.head? = some c then some ⟨.code, due.tail⟩ else none
  | '"' | '\'' => some ⟨.quoted c, due⟩
  | '-' => some ⟨.dash, due⟩
  | _ => some ⟨.code, due⟩

/-- Does the character end a line? -/
def isBreak (c : Char) : Bool := c = '\n' || c = '\r'

/-- Reads a character. -/
def next (s : Scan) (c : Char) : Option Scan :=
  if isBreak c then none
  else
    match s.mode with
    | .code => inCode s.due c
    | .dash => if c = '-' then some ⟨.mark, s.due⟩ else inCode s.due c
    | .mark => some ⟨if c = '[' then .bracket else .rest, s.due⟩
    | .bracket => some ⟨if c = '[' then .comment else .rest, s.due⟩
    | .comment => some ⟨if c = ']' then .closing else .comment, s.due⟩
    | .closing => some ⟨if c = ']' then .code else .comment, s.due⟩
    | .rest => some s
    | .quoted q =>
      some ⟨if c = '\\' then .escaped q else if c = q then .code else .quoted q, s.due⟩
    | .escaped q => some ⟨.quoted q, s.due⟩

/-- Reads characters. -/
def run (s : Scan) : List Char → Option Scan
  | [] => some s
  | c :: cs => (s.next c).bind fun t => t.run cs

/-- May a line end here? -/
def isDone (s : Scan) : Bool :=
  s.due.isEmpty && (s.mode = .code || s.mode = .dash || s.mode = .mark || s.mode = .bracket ||
    s.mode = .rest)

@[simp] theorem run_nil (s : Scan) : s.run [] = some s := rfl

theorem run_append (s : Scan) (cs ds : List Char) :
    s.run (cs ++ ds) = (s.run cs).bind fun t => t.run ds := by
  induction cs generalizing s with
  | nil => rfl
  | cons c cs ih => simp [run, ih, Option.bind_assoc]

/-- Texts are read one after the other. -/
theorem run_texts {s t u : Scan} {a b : String} (ha : s.run a.toList = some t)
    (hb : t.run b.toList = some u) : s.run (a ++ b).toList = some u := by
  rw [String.toList_append, run_append, ha]
  exact hb

/-- What can be read holds no line break. -/
theorem not_isBreak_of_run {s t : Scan} (h : s.run cs = some t) : ∀ c ∈ cs, isBreak c = false := by
  induction cs generalizing s with
  | nil => simp
  | cons c cs ih =>
    obtain ⟨u, hu, hrun⟩ := Option.bind_eq_some_iff.1 h
    have hc : isBreak c = false := by
      rw [Bool.eq_false_iff]
      intro hb
      simp [next, hb] at hu
    simpa [hc] using ih hrun

end Scan

/-- Is everything closed at the end of the line that is opened in it? -/
def balanced (line : String) : Bool := ((Scan.mk .code []).run line.toList).any Scan.isDone

/-- A text without a line break. -/
def OneLine (t : String) : Prop := ∀ c ∈ t.toList, Scan.isBreak c = false

/-- A text that leaves a lexer where it was. -/
def Neutral (t : String) : Prop := ∀ due, (Scan.mk .code due).run t.toList = some ⟨.code, due⟩

/-- A neutral text that does not begin with a dash. -/
structure Firm (t : String) : Prop where
  neutral : Neutral t
  begun : ∃ c rest, t.toList = c :: rest ∧ c ≠ '-'

/-! ## Plain characters -/

/-- Is the character neither a bracket nor a quote, a dash or a line break? -/
def isPlain (c : Char) : Bool :=
  !(['(', ')', '[', ']', '\x7b', '\x7d', '"', '\'', '-', '\n', '\r'].contains c)

theorem Scan.not_isBreak_of_isPlain (h : isPlain c = true) : isBreak c = false := by
  simp_all [isPlain, isBreak]

theorem Scan.next_of_isPlain (h : isPlain c = true) (due : List Char) :
    (Scan.mk .code due).next c = some ⟨.code, due⟩ := by
  simp only [next, not_isBreak_of_isPlain h, inCode]
  split <;> simp_all [isPlain]

theorem Scan.run_of_isPlain (h : ∀ c ∈ cs, isPlain c = true) (due : List Char) :
    (Scan.mk .code due).run cs = some ⟨.code, due⟩ := by
  induction cs with
  | nil => rfl
  | cons c cs ih =>
    rw [run, next_of_isPlain (h c (by simp))]
    exact ih fun d hd => h d (by simp [hd])

theorem neutral_of_isPlain (h : t.toList.all isPlain = true) : Neutral t :=
  Scan.run_of_isPlain (List.all_eq_true.1 h)

theorem firm_of_isPlain (h : t.toList.all isPlain = true) (ht : t.toList ≠ []) : Firm t := by
  refine ⟨neutral_of_isPlain h, ?_⟩
  obtain ⟨c, rest, hc⟩ := List.exists_cons_of_ne_nil ht
  refine ⟨c, rest, hc, ?_⟩
  rintro rfl
  simp [hc, isPlain] at h

/-! Literals: a literal is `String.ofList` of its characters, so facts about them are facts about
lists. -/

theorem isPlain_ofList (h : cs.all isPlain = true) :
    (String.ofList cs).toList.all isPlain = true := by
  rw [String.toList_ofList]
  exact h

theorem Scan.run_ofList {s t : Scan} (h : s.run cs = some t) :
    s.run (String.ofList cs).toList = some t := by
  rw [String.toList_ofList]
  exact h

theorem Neutral.ofList (h : cs.all isPlain = true) : Neutral (String.ofList cs) :=
  neutral_of_isPlain (isPlain_ofList h)

theorem Firm.ofList (h : (c :: cs).all isPlain = true) : Firm (String.ofList (c :: cs)) :=
  firm_of_isPlain (isPlain_ofList h) (by simp)

theorem OneLine.ofList (h : (cs.all fun c => !Scan.isBreak c) = true) :
    OneLine (String.ofList cs) := by
  intro c hc
  rw [String.toList_ofList] at hc
  simpa using List.all_eq_true.1 h c hc

theorem isPlain_of_isPart (h : Identifier.isPart c = true) : isPlain c = true := by
  rw [isPlain, Bool.not_eq_true', List.contains_eq_mem, decide_eq_false_iff_not]
  intro hc
  simp only [List.mem_cons, List.not_mem_nil, or_false] at hc
  obtain rfl | rfl | rfl | rfl | rfl | rfl | rfl | rfl | rfl | rfl | rfl := hc <;>
    exact absurd h (by decide)

theorem isPart_of_isDigit (h : c.isDigit = true) : Identifier.isPart c = true := by
  simp [Identifier.isPart, Char.isAlphanum, h]

theorem isPlain_of_isDigit (h : c.isDigit = true) : isPlain c = true :=
  isPlain_of_isPart (isPart_of_isDigit h)

/-! ## Joining neutral texts -/

theorem Neutral.oneLine (h : Neutral t) : OneLine t := Scan.not_isBreak_of_run (h [])

theorem neutral_empty : Neutral "" := fun _ => rfl

theorem Neutral.append {s t : String} (hs : Neutral s) (ht : Neutral t) : Neutral (s ++ t) :=
  fun due => Scan.run_texts (hs due) (ht due)

theorem Firm.append {s t : String} (hs : Firm s) (ht : Neutral t) : Firm (s ++ t) := by
  obtain ⟨c, rest, hc, hd⟩ := hs.begun
  exact ⟨hs.neutral.append ht, c, rest ++ t.toList, by simp [hc], hd⟩

/-- In front of a firm text may stand plain characters, or nothing. -/
theorem Firm.after {s : String} (hs : s.toList.all isPlain = true) (ht : Firm t) :
    Firm (s ++ t) := by
  by_cases he : s.toList = []
  · obtain rfl : s = "" := String.toList_injective he
    simpa using ht
  · exact (firm_of_isPlain hs he).append ht.neutral

/-- A text between two characters the second of which closes the first. -/
theorem Neutral.enclosed {s u : String} (ht : Neutral t)
    (hs : ∀ due, (Scan.mk .code due).run s.toList = some ⟨.code, c :: due⟩)
    (hu : ∀ due, (Scan.mk .code (c :: due)).run u.toList = some ⟨.code, due⟩) :
    Neutral (s ++ t ++ u) :=
  fun due => Scan.run_texts (Scan.run_texts (hs due) (ht (c :: due))) (hu due)

theorem Neutral.paren (h : Neutral t) : Neutral ("(" ++ t ++ ")") :=
  h.enclosed (fun _ => rfl) (fun _ => rfl)

theorem Neutral.bracket (h : Neutral t) : Neutral ("[" ++ t ++ "]") :=
  h.enclosed (fun _ => rfl) (fun _ => rfl)

theorem Neutral.brace (h : Neutral t) : Neutral ("\x7b" ++ t ++ "\x7d") :=
  h.enclosed (fun _ => rfl) (fun _ => rfl)

/-- A minus sign in front of a text that begins with no dash. -/
theorem Firm.negated (h : Firm t) : Neutral ("-" ++ t) := by
  intro due
  obtain ⟨c, rest, hc, hd⟩ := h.begun
  have hrun := h.neutral due
  rw [hc, Scan.run] at hrun
  have hnext : (Scan.mk .dash due).next c = (Scan.mk .code due).next c := by simp [Scan.next, hd]
  rw [String.toList_append, hc, ← hrun, ← hnext]
  rfl

theorem neutral_intercalate {ts : List String} (h : ∀ t ∈ ts, Neutral t) :
    Neutral (", ".intercalate ts) := by
  induction ts with
  | nil => exact neutral_empty
  | cons t ts ih =>
    cases ts with
    | nil => simpa using h t (by simp)
    | cons u ts =>
      rw [String.intercalate_cons_cons, String.append_assoc]
      have hcomma : Neutral ", " := .ofList (by decide)
      exact (h t (by simp)).append (hcomma.append (ih fun v hv => h v (by simp_all)))

theorem OneLine.append {s t : String} (hs : OneLine s) (ht : OneLine t) : OneLine (s ++ t) := by
  intro c hc
  rw [String.toList_append, List.mem_append] at hc
  exact hc.elim (hs c) (ht c)

/-! ## Numerals -/

theorem isPlain_toString (n : Nat) : (toString n).toList.all isPlain = true := by
  rw [List.all_eq_true, Nat.toString_eq_ofList_toDigits, String.toList_ofList]
  intro c hc
  exact isPlain_of_isDigit (Nat.isDigit_of_mem_toDigits (by decide) (by decide) hc)

theorem firm_toString (n : Nat) : Firm (toString n) := by
  refine firm_of_isPlain (isPlain_toString n) ?_
  rw [Nat.toString_eq_ofList_toDigits, String.toList_ofList]
  exact Nat.toDigits_ne_nil

namespace Numeral

theorem neutral_signed (n : Int) : Neutral (signed n) := by
  unfold signed
  split
  · exact (firm_toString _).negated
  · exact (firm_toString _).neutral

theorem firm_int (n : Int) : Firm (int n) := by
  unfold int guarded
  split
  · exact ⟨(neutral_signed n).paren, '(', _, by simp; rfl, by decide⟩
  · rename_i h
    have hn : ¬ n < 0 := by simpa using h
    rw [signed, if_neg hn]
    exact firm_toString _

/-- The digits of a decimal are plain, whichever of them are taken. -/
theorem isPlain_digits {ds : List Char} (h : ∀ c ∈ ds, c.isDigit = true) :
    (String.ofList ds).toList.all isPlain = true := by
  rw [List.all_eq_true, String.toList_ofList]
  exact fun c hc => isPlain_of_isDigit (h c hc)

theorem isPlain_zeros (n : Nat) : (zeros n).toList.all isPlain = true := by
  refine isPlain_digits fun c hc => ?_
  rw [List.eq_of_mem_replicate hc]
  decide

theorem firm_positional {ds : List Char} (h : ∀ c ∈ ds, c.isDigit = true) (lead : Int) :
    Firm (positional ds lead) := by
  unfold positional
  split
  · have hzero : Firm "0." := .ofList (by decide)
    exact (hzero.append (neutral_of_isPlain (isPlain_zeros _))).append
      (neutral_of_isPlain (isPlain_digits h))
  · have hpoint : Firm "." := .ofList (by decide)
    have htail : Neutral (if (ds.drop (lead.toNat + 1)).isEmpty then "0"
        else String.ofList (ds.drop (lead.toNat + 1))) := by
      split
      · exact .ofList (by decide)
      · exact neutral_of_isPlain (isPlain_digits fun c hc => h c (List.mem_of_mem_drop hc))
    simp only [String.append_assoc]
    exact Firm.after (isPlain_digits fun c hc => h c (List.mem_of_mem_take hc))
      (Firm.after (isPlain_zeros _) (hpoint.append htail))

theorem firm_scientific {ds : List Char} (h : ∀ c ∈ ds, c.isDigit = true) (lead : Int) :
    Firm (scientific ds lead) := by
  unfold scientific
  have hexponent : Firm ("e" ++ signed lead) :=
    Firm.append (.ofList (by decide)) (neutral_signed lead)
  have hfraction : (if (ds.drop 1).isEmpty then ""
      else "." ++ String.ofList (ds.drop 1)).toList.all isPlain = true := by
    split
    · rfl
    · have htail : (String.ofList (ds.drop 1)).toList.all isPlain = true :=
        isPlain_digits fun c hc => h c (List.mem_of_mem_drop hc)
      rw [String.toList_append, List.all_append, htail]
      rfl
  simp only [String.append_assoc]
  exact Firm.after (isPlain_digits fun c hc => h c (List.mem_of_mem_take hc))
    (Firm.after hfraction hexponent)

theorem firm_decimal (d : Decimal) : Firm (decimal d) := by
  have hds : ∀ c ∈ withoutTrailingZeros (Nat.toDigits 10 d.digits), c.isDigit = true := by
    intro c hc
    refine Nat.isDigit_of_mem_toDigits (by decide) (by decide) (b := 10) (n := d.digits) ?_
    rw [withoutTrailingZeros, List.mem_reverse] at hc
    exact List.mem_reverse.1 ((List.dropWhile_sublist _).mem hc)
  unfold decimal
  simp only
  split
  · exact firm_positional hds _
  · exact firm_scientific hds _

theorem firm_unsignedFloat (x : Binary64) : Firm (unsignedFloat x) := by
  unfold unsignedFloat
  split
  · exact .ofList (by decide)
  · exact firm_decimal _

/-- A negative number brings its own parentheses. -/
theorem firm_float (x : Binary64) : Firm (float x) := by
  unfold float
  split
  · exact ⟨fun _ => rfl, '(', _, rfl, by decide⟩
  · split
    · split
      · exact ⟨fun _ => rfl, '(', _, rfl, by decide⟩
      · exact .ofList (by decide)
    · split
      · have hneg := (firm_unsignedFloat x).negated.paren
        rw [← String.append_assoc] at hneg
        exact ⟨hneg, '(', _, by simp; rfl, by decide⟩
      · exact firm_unsignedFloat x

end Numeral

/-! ## Quoted literals -/

namespace Quoted

/-- The digit of a numeric escape. -/
theorem isDigit_digit (n : Nat) : (digit n).isDigit = true := by
  have h : ∀ k < 10, (Char.ofNat (48 + k)).isDigit = true := by decide
  exact h _ (Nat.mod_lt n (by decide))

/-- A character of a literal that neither ends it nor escapes. -/
theorem next_quoted (due : List Char) (hb : Scan.isBreak c = false) (he : c ≠ '\\') (hq : c ≠ q) :
    (Scan.mk (.quoted q) due).next c = some ⟨.quoted q, due⟩ := by
  simp [Scan.next, hb, he, hq]

theorem next_quoted_digit (q : Char) (hq : q.isDigit = false) (due : List Char) (n : Nat) :
    (Scan.mk (.quoted q) due).next (digit n) = some ⟨.quoted q, due⟩ := by
  have hd := isDigit_digit n
  refine next_quoted due ?_ ?_ ?_
  · exact Scan.not_isBreak_of_isPlain (isPlain_of_isDigit hd)
  · rintro h
    rw [h] at hd
    exact absurd hd (by decide)
  · rintro rfl
    simp [hd] at hq

/-- A numeric escape leaves a lexer in the literal. -/
theorem run_numeric (hq : q.isDigit = false) (due : List Char) (n : Nat) :
    (Scan.mk (.quoted q) due).run (numeric n) = some ⟨.quoted q, due⟩ := by
  have hfirst : (Scan.mk (.escaped q) due).next (digit (n / 100)) = some ⟨.quoted q, due⟩ := by
    have hb := Scan.not_isBreak_of_isPlain (isPlain_of_isDigit (isDigit_digit (n / 100)))
    simp [Scan.next, hb]
  have hslash : (Scan.mk (.quoted q) due).next '\\' = some ⟨.escaped q, due⟩ := rfl
  simp only [numeric, Scan.run, hslash, hfirst, next_quoted_digit q hq, Option.bind_some]

theorem run_character (due : List Char) (c : Char) :
    (Scan.mk (.quoted '"') due).run (character c) = some ⟨.quoted '"', due⟩ := by
  unfold character
  split
  · rfl
  · split
    · rfl
    · split
      · rfl
      · split
        · rfl
        · split
          · exact run_numeric (by decide) due _
          · rename_i hq he hn hr _
            have hb : Scan.isBreak c = false := by simp [Scan.isBreak, hn, hr]
            simp [Scan.run, next_quoted due hb he hq]

/-- A printable byte that is neither the quote nor the backslash. -/
theorem printable (b : UInt8) (hlow : 32 ≤ b) (hhigh : b ≤ 126) (hq : b ≠ 39) (he : b ≠ 92) :
    Char.ofNat b.toNat ≠ '\n' ∧ Char.ofNat b.toNat ≠ '\r' ∧ Char.ofNat b.toNat ≠ '\\' ∧
      Char.ofNat b.toNat ≠ '\'' := by
  have h : ∀ n < 127, 32 ≤ n ∧ n ≠ 39 ∧ n ≠ 92 → Char.ofNat n ≠ '\n' ∧ Char.ofNat n ≠ '\r' ∧
      Char.ofNat n ≠ '\\' ∧ Char.ofNat n ≠ '\'' := by decide
  rw [UInt8.le_iff_toNat_le] at hlow hhigh
  rw [ne_eq, ← UInt8.toNat_inj] at hq he
  exact h b.toNat (Nat.lt_succ_of_le hhigh) ⟨hlow, hq, he⟩

theorem run_byte (due : List Char) (b : UInt8) :
    (Scan.mk (.quoted '\'') due).run (byte b) = some ⟨.quoted '\'', due⟩ := by
  unfold byte
  split
  · rfl
  · split
    · rfl
    · split
      · rename_i hq he hb
        obtain ⟨h₁, h₂, h₃, h₄⟩ := printable b hb.1 hb.2 hq he
        have hbreak : Scan.isBreak (Char.ofNat b.toNat) = false := by simp [Scan.isBreak, h₁, h₂]
        simp [Scan.run, next_quoted due hbreak h₃ h₄]
      · exact run_numeric (by decide) due _

/-- What leaves a lexer in the literal piece by piece does so as a whole. -/
theorem run_flatMap {α : Type} {f : α → List Char}
    (h : ∀ due a, (Scan.mk (.quoted q) due).run (f a) = some ⟨.quoted q, due⟩) (due : List Char)
    (xs : List α) : (Scan.mk (.quoted q) due).run (xs.flatMap f) = some ⟨.quoted q, due⟩ := by
  induction xs with
  | nil => rfl
  | cons x xs ih => simp [Scan.run_append, h, ih]

/-- A literal that its quotes close. -/
theorem run_closed (hq : q = '"' ∨ q = '\'')
    (h : ∀ due, (Scan.mk (.quoted q) due).run cs = some ⟨.quoted q, due⟩) (due : List Char) :
    (Scan.mk .code due).run (q :: cs ++ [q]) = some ⟨.code, due⟩ := by
  have hopen : (Scan.mk .code due).next q = some ⟨.quoted q, due⟩ := by
    obtain rfl | rfl := hq <;> rfl
  have hclose : (Scan.mk (.quoted q) due).next q = some ⟨.code, due⟩ := by
    obtain rfl | rfl := hq <;> rfl
  rw [List.cons_append, Scan.run, hopen, Option.bind_some, Scan.run_append, h due]
  simp [Scan.run, hclose]

theorem neutral_string (t : String) : Neutral (string t) := by
  intro due
  rw [string, String.toList_ofList]
  exact run_closed (.inl rfl) (fun due => run_flatMap run_character due _) due

theorem neutral_bytes (bs : List UInt8) : Neutral (bytes bs) := by
  intro due
  rw [bytes, String.toList_ofList]
  exact run_closed (.inr rfl) (fun due => run_flatMap run_byte due _) due

end Quoted

/-! ## Identifiers -/

namespace Identifier

theorem isPart_upper_digitChar : ∀ n < 16, isPart (Nat.digitChar n).toUpper = true := by decide

theorem isPart_hexadecimal {n : Nat} (h : c ∈ hexadecimal n) : isPart c = true := by
  obtain ⟨d, hd, rfl⟩ := List.mem_map.1 h
  induction n using Nat.strongRecOn with
  | ind n ih =>
    by_cases hn : n < 16
    · rw [Nat.toDigits_of_lt_base hn, List.mem_singleton] at hd
      exact hd ▸ isPart_upper_digitChar n hn
    · rw [Nat.toDigits_of_base_le (by decide) (by omega), List.mem_append, List.mem_singleton] at hd
      obtain hd | rfl := hd
      · exact ih (n / 16) (by omega) hd (List.mem_map_of_mem hd)
      · exact isPart_upper_digitChar _ (Nat.mod_lt n (by decide))

theorem isPart_spelling (c : Char) : ∀ d ∈ (spelling c).toList, isPart d = true := by
  unfold spelling
  split
  case h_17 =>
    intro d hd
    simp only [String.toList_append, List.mem_append, String.toList_ofList] at hd
    obtain hd | hd := hd
    · simp at hd
      exact hd ▸ rfl
    · exact isPart_hexadecimal hd
  all_goals exact List.all_eq_true.1 (by decide)

theorem isPart_character (c : Char) : ∀ d ∈ character c, isPart d = true := by
  unfold character
  split
  · rename_i h
    simpa using h
  · intro d hd
    simp only [String.toList_append, List.mem_append] at hd
    obtain (hd | hd) | hd := hd
    · exact List.all_eq_true.1 (by decide) d hd
    · exact isPart_spelling c d hd
    · exact List.all_eq_true.1 (by decide) d hd

/-- An identifier for a text holds only characters of identifiers. -/
theorem isPart_sanitize (name : String) : ∀ c ∈ (sanitize name).toList, isPart c = true := by
  have hflat : ∀ c ∈ name.toList.flatMap character, isPart c = true := by
    intro c hc
    obtain ⟨d, -, hd⟩ := List.mem_flatMap.1 hc
    exact isPart_character d c hd
  have hstart : ∀ cs : List Char, (∀ c ∈ cs, isPart c = true) →
      ∀ c ∈ withStart cs, isPart c = true := by
    intro cs h c hc
    unfold withStart at hc
    split at hc
    · simp at hc
      exact hc ▸ rfl
    · split at hc
      · obtain rfl | hc := List.mem_cons.1 hc
        · rfl
        · exact h c hc
      · exact h c hc
  rw [sanitize, String.toList_ofList, untaken]
  split
  · intro c hc
    obtain rfl | hc := List.mem_cons.1 hc
    · rfl
    · exact hstart _ hflat c hc
  · exact hstart _ hflat

end Identifier

end Moonstack
