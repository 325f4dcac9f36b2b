import Moonstack.Lowering.Storage
import Moonstack.Proofs.Text.Lexical
import Moonstack.Text.Writer

/-!
# Tidy code

Expressions, statements and lines whose text leaves nothing open, whatever operands were put into
them. The texts of operands that the operand stack can give are neutral, and all but the marker for
a missing value are firm.

Every spelling of an operation keeps expressions tidy, with one exception: the negative of a float
is tidy only if the operand is firm (`UnaryOp.tidy_lower`). `Line.damaged` is the line that negates
the marker: the sign and the marker make a comment that nothing closes.
-/

namespace Moonstack

variable {memory : Expr} {o : Operand}

/-! ## Operands -/

theorem isPlain_slotName (n : Nat) : (slotName n).toList.all isPlain = true := by
  have h : slotName n = "reg" ++ toString n := rfl
  rw [h, String.toList_append, List.all_append, isPlain_toString]
  rfl

theorem firm_slotName (n : Nat) : Firm (slotName n) :=
  Firm.append (.ofList (by decide)) (firm_toString n).neutral

theorem Helper.isPlain_name (h : Helper) : h.name.toList.all isPlain = true := by
  cases h <;> exact isPlain_ofList (by decide)

theorem Helper.firm_name (h : Helper) : Firm h.name := by
  cases h <;> exact .ofList (by decide)

/-- A constant never begins with a dash: a negative one stands in parentheses. -/
theorem Const.firm_text (c : Const) : Firm c.text := by
  cases c with
  | i32 value => exact Numeral.firm_int _
  | i64 value =>
    have hargs : Neutral (Numeral.signed (LongInt.ofInt64 value).low.toInt ++ ", " ++
        Numeral.signed (LongInt.ofInt64 value).high.toInt) :=
      ((Numeral.neutral_signed _).append (.ofList (by decide))).append
        (Numeral.neutral_signed _)
    have htext : (Const.i64 value).text = Helper.longInt.name ++ "(" ++
        Numeral.signed (LongInt.ofInt64 value).low.toInt ++ ", " ++
        Numeral.signed (LongInt.ofInt64 value).high.toInt ++ ")" := rfl
    rw [htext]
    simpa only [String.append_assoc] using (Helper.firm_name .longInt).append hargs.paren
  | f32 | f64 => exact Numeral.firm_float _

/-- A literal that code puts on the operand stack. -/
def Literal.Proper : Literal → Prop
  | const _ | nil => True
  | raw _ => False

/-- An operand that the operand stack can give. -/
def Operand.Proper : Operand → Prop
  | literal l => l.Proper
  | slot _ | missing => True

theorem Literal.firm_text {l : Literal} (h : l.Proper) : Firm l.text := by
  cases l with
  | const c => exact c.firm_text
  | nil => exact .ofList (by decide)
  | raw t => exact h.elim

theorem Operand.firm_text (h : o.Proper) (hm : o ≠ .missing) : Firm o.text := by
  cases o with
  | slot n => exact firm_slotName n
  | literal l => exact Literal.firm_text h
  | missing => exact absurd rfl hm

/-- The marker is a closed comment and a `nil`. -/
theorem Operand.neutral_text (h : o.Proper) : Neutral o.text := by
  by_cases hm : o = .missing
  · subst hm
    exact fun _ => Scan.run_ofList rfl
  · exact (Operand.firm_text h hm).neutral

/-! ## Expressions -/

namespace Expr

mutual

/-- All parts of the expression are neutral, and behind a minus sign stands no dash. -/
def Tidy : Expr → Prop
  | operand o => Neutral o.text
  | name t => Neutral t
  | number _ | string _ | bytes _ => True
  | paren e => e.Tidy
  | negate e => e.Tidy ∧ Firm e.text
  | binary _ left right => left.Tidy ∧ right.Tidy
  | field e key => e.Tidy ∧ key.toList.all isPlain = true
  | index e key => e.Tidy ∧ key.Tidy
  | call function args => function.Tidy ∧ TidyAll args
  | method receiver key args => receiver.Tidy ∧ key.toList.all isPlain = true ∧ TidyAll args
  | table items => TidyAll items

def TidyAll : List Expr → Prop
  | [] => True
  | e :: rest => e.Tidy ∧ TidyAll rest

end

theorem tidyAll_iff (es : List Expr) : TidyAll es ↔ ∀ e ∈ es, e.Tidy := by
  induction es with
  | nil => simp [TidyAll]
  | cons e rest ih => simp [TidyAll, ih]

theorem neutral_operator (op : InfixOp) : Neutral (" " ++ op.text ++ " ") := by
  cases op <;> exact fun _ => rfl

mutual

theorem neutral_text : (e : Expr) → e.Tidy → Neutral e.text
  | operand _, h | name _, h => h
  | number n, _ => (firm_toString n).neutral
  | string t, _ => Quoted.neutral_string t
  | bytes bs, _ => Quoted.neutral_bytes bs
  | paren e, h => (neutral_text e h).paren
  | negate _, h => h.2.negated
  | binary op left right, h => by
    have hop := (neutral_text left h.1).append ((neutral_operator op).append (neutral_text right h.2))
    simpa only [text, String.append_assoc] using hop
  | field e key, h =>
    ((neutral_text e h.1).append (.ofList (by decide))).append (neutral_of_isPlain h.2)
  | index e key, h => by
    have hkey := (neutral_text e h.1).append (neutral_text key h.2).bracket
    simpa only [text, String.append_assoc] using hkey
  | call function args, h => by
    have hargs := neutral_intercalate (neutral_texts args h.2)
    simpa only [text, String.append_assoc] using (neutral_text function h.1).append hargs.paren
  | method receiver key args, h => by
    have hcolon : Neutral ":" := .ofList (by decide)
    have hkey := ((neutral_text receiver h.1).append hcolon).append (neutral_of_isPlain h.2.1)
    have hargs := neutral_intercalate (neutral_texts args h.2.2)
    simpa only [text, String.append_assoc] using hkey.append hargs.paren
  | table items, h => (neutral_intercalate (neutral_texts items h)).brace

theorem neutral_texts : (es : List Expr) → TidyAll es → ∀ t ∈ texts es, Neutral t
  | [], _ => by simp [texts]
  | e :: rest, h => by
    intro t ht
    obtain rfl | ht := List.mem_cons.1 ht
    · exact neutral_text e h.1
    · exact neutral_texts rest h.2 t ht

end

/-! ### Ways to build expressions -/

theorem tidy_operand (h : o.Proper) : (operand o).Tidy := Operand.neutral_text h

@[simp] theorem tidy_number (n : Nat) : (number n).Tidy := trivial

@[simp] theorem tidy_slot (n : Nat) : (slot n).Tidy := (firm_slotName n).neutral

@[simp] theorem tidy_helper (h : Helper) : (helper h).Tidy := h.firm_name.neutral

@[simp] theorem tidy_paren (e : Expr) : (paren e).Tidy ↔ e.Tidy := Iff.rfl

@[simp] theorem tidy_binary (op : InfixOp) (l r : Expr) :
    (binary op l r).Tidy ↔ l.Tidy ∧ r.Tidy := Iff.rfl

@[simp] theorem tidy_index (e key : Expr) : (index e key).Tidy ↔ e.Tidy ∧ key.Tidy := Iff.rfl

@[simp] theorem tidyAll_nil : TidyAll [] := trivial

@[simp] theorem tidyAll_cons (e : Expr) (rest : List Expr) :
    TidyAll (e :: rest) ↔ e.Tidy ∧ TidyAll rest := Iff.rfl

@[simp] theorem tidy_callHelper (h : Helper) (args : List Expr) :
    (callHelper h args).Tidy ↔ TidyAll args := by
  simp [callHelper, Tidy]

theorem tidy_callField {library key : String} (args : List Expr)
    (hl : library.toList.all isPlain = true) (hk : key.toList.all isPlain = true) :
    (callField library key args).Tidy ↔ TidyAll args := by
  simp only [callField, Tidy, hk, and_true, and_iff_right_iff_imp]
  exact fun _ => neutral_of_isPlain hl

theorem tidy_callMethod {key : String} (receiver : Expr) (args : List Expr)
    (hk : key.toList.all isPlain = true) :
    (callMethod receiver key args).Tidy ↔ receiver.Tidy ∧ TidyAll args := by
  simp only [callMethod, Tidy, hk, true_and]

theorem tidy_member {e : Expr} (h : e.Tidy) (key : String) : (member e key).Tidy := by
  unfold member
  split
  · rename_i hk
    refine ⟨h, ?_⟩
    unfold Identifier.isValid at hk
    split at hk
    · exact absurd hk (by decide)
    · rename_i c rest hkey
      simp only [Bool.and_eq_true, List.all_eq_true] at hk
      have hc : Identifier.isPart c = true := by
        have := hk.1.1
        simp_all [Identifier.isStart, Identifier.isPart, Char.isAlphanum]
        grind
      rw [hkey, List.all_cons, Bool.and_eq_true, List.all_eq_true]
      exact ⟨isPlain_of_isPart hc, fun d hd => isPlain_of_isPart (hk.1.2 d hd)⟩
  · exact ⟨h, trivial⟩

@[simp] theorem tidy_flag (condition : Expr) : (flag condition).Tidy ↔ condition.Tidy := by
  simp [flag]

@[simp] theorem tidy_error (message : String) : (error message).Tidy :=
  ⟨.ofList (by decide), trivial, trivial⟩

end Expr

/-! ## Operations -/

open Moonstack.Expr

@[simp] theorem ValueType.tidy_zero (type : ValueType) : type.zero.Tidy := by
  cases type <;> simp [zero]

@[simp] theorem tidy_toBit (e : Expr) : (toBit e).Tidy ↔ e.Tidy := by
  rw [toBit, tidy_callField _ (isPlain_ofList rfl) (isPlain_ofList rfl)]
  simp

@[simp] theorem tidy_signExtended (e : Expr) (bits : Nat) :
    (signExtended e bits).Tidy ↔ e.Tidy := by
  rw [signExtended, tidy_callField _ (isPlain_ofList rfl) (isPlain_ofList rfl), tidyAll_cons,
    tidy_callField _ (isPlain_ofList rfl) (isPlain_ofList rfl)]
  simp

variable {l r x : Expr}

theorem tidy_callFloat {key : String} (args : List Expr) (hk : key.toList.all isPlain = true) :
    (callField Helper.float.name key args).Tidy ↔ TidyAll args :=
  tidy_callField args (Helper.isPlain_name _) hk

section

variable (hl : l.Tidy) (hr : r.Tidy)
include hl hr

theorem BinaryOp.tidy_lower32 (precise : Bool) (op : BinaryOp) :
    ∀ e ∈ op.lower32 precise l r, e.Tidy := by
  cases op <;> simp (disch := exact isPlain_ofList rfl) [lower32, tidy_callField, hl, hr]
  split <;> simp [hl, hr]

theorem BinaryOp.tidy_lower64 (op : BinaryOp) : ∀ e ∈ op.lower64 l r, e.Tidy := by
  cases op <;> simp (disch := exact isPlain_ofList rfl) [lower64, tidy_callMethod, hl, hr]

theorem BinaryOp.tidy_lowerFloat (op : BinaryOp) : ∀ e ∈ op.lowerFloat l r, e.Tidy := by
  cases op <;> simp (disch := exact isPlain_ofList rfl) [lowerFloat, tidy_callFloat, hl, hr]

theorem BinaryOp.tidy_lower (precise : Bool) (type : ValueType) (op : BinaryOp) :
    ∀ e ∈ op.lower precise type l r, e.Tidy := by
  cases type with
  | i32 => exact op.tidy_lower32 hl hr precise
  | i64 => exact op.tidy_lower64 hl hr
  | f32 | f64 => exact op.tidy_lowerFloat hl hr

theorem Comparison.tidy_lower64 (op : Comparison) : ∀ e ∈ op.lower64 l r, e.Tidy := by
  cases op <;> simp (disch := exact isPlain_ofList rfl) [lower64, tidy_callMethod, hl, hr]

theorem Comparison.tidy_lower (type : ValueType) (op : Comparison) :
    ∀ e ∈ op.lower type l r, e.Tidy := by
  cases type with
  | i32 => cases op <;> simp [lower, lower32, compared, comparedUnsigned, hl, hr]
  | i64 => exact op.tidy_lower64 hl hr
  | f32 | f64 => cases op <;> simp [lower, lowerFloat, compared, hl, hr]

end

theorem tidy_lowerEqz (type : ValueType) (hx : x.Tidy) : ∀ e ∈ lowerEqz type x, e.Tidy := by
  cases type <;>
    simp (disch := exact isPlain_ofList rfl) [lowerEqz, compared, tidy_callMethod, hx]

theorem UnaryOp.tidy_lower64 (op : UnaryOp) (hx : x.Tidy) : ∀ e ∈ op.lower64 x, e.Tidy := by
  cases op <;> simp (disch := exact isPlain_ofList rfl) [lower64, tidy_callMethod, hx]

theorem UnaryOp.tidy_lowerFloat (op : UnaryOp) (hx : x.Tidy) :
    ∀ e ∈ op.lowerFloat x, e.Tidy ∨ e = paren (negate x) := by
  cases op <;>
    simp (disch := exact isPlain_ofList rfl) [lowerFloat, tidy_callField, tidy_callFloat, hx]

/-- A unary operation is tidy, unless it puts a minus sign in front of a text that begins with a
dash. -/
theorem UnaryOp.tidy_lower (type : ValueType) (op : UnaryOp) (hx : x.Tidy) :
    ∀ e ∈ op.lower type x, e.Tidy ∨ e = paren (negate x) := by
  cases type with
  | i32 => cases op <;> simp [lower, lower32, hx]
  | i64 => exact fun e he => .inl (op.tidy_lower64 hx e he)
  | f32 | f64 => exact op.tidy_lowerFloat hx

/-- Among the operands of the stack only the marker cannot take a minus sign. -/
theorem UnaryOp.tidy_lower_operand (type : ValueType) (op : UnaryOp) (ho : o.Proper) :
    ∀ e ∈ op.lower type (operand o), e.Tidy ∨ e = paren (negate (operand .missing)) := by
  intro e he
  by_cases hm : o = .missing
  · subst hm
    exact op.tidy_lower type (tidy_operand ho) e he
  · obtain h | rfl := op.tidy_lower type (tidy_operand ho) e he
    · exact .inl h
    · exact .inl ⟨tidy_operand ho, Operand.firm_text ho hm⟩

theorem Conversion.tidy_lower (op : Conversion) (hx : x.Tidy) : ∀ e ∈ op.lower x, e.Tidy := by
  unfold lower
  split <;> simp (disch := exact isPlain_ofList rfl) [tidy_callField, tidy_callMethod, hx]

/-! ## Statements -/

namespace Stmt

/-- All expressions of the statement are tidy. -/
def Tidy : Stmt → Prop
  | assign targets value => TidyAll targets ∧ value.Tidy
  | run e => e.Tidy
  | capture place _ _ => place.Tidy
  | goto _ => True
  | ret values => ∀ o ∈ values, Neutral o.text

theorem neutral_snapshot (slots : Nat) : Neutral (snapshot slots) := by
  refine neutral_intercalate fun t ht => ?_
  obtain ⟨n, -, rfl⟩ := List.mem_map.1 ht
  exact ((firm_slotName n).neutral.append (.ofList (by decide))).append
    (firm_slotName n).neutral

end Stmt

theorem Label.neutral_text (l : Label) : Neutral l.text := by
  have hblock : ∀ b : BlockName, Neutral b.text := by
    intro b
    have htext : b.text = b.kind.word ++ "_" ++ toString b.offset := rfl
    have hword : Neutral b.kind.word := by cases b.kind <;> exact .ofList (by decide)
    rw [htext]
    exact (hword.append (.ofList (by decide))).append (firm_toString _).neutral
  cases l with
  | start b | alternative b | fin b => exact (hblock b).append (.ofList (by decide))
  | resume offset =>
    exact Neutral.append (s := "jmp_") (.ofList (by decide)) (firm_toString _).neutral

/-- The text of a tidy statement leaves nothing open. -/
theorem Stmt.neutral_text {s : Stmt} (h : s.Tidy) : Neutral s.text := by
  have hend : Neutral ";" := .ofList (by decide)
  cases s with
  | assign targets value =>
    have htargets := neutral_intercalate (neutral_texts targets h.1)
    exact ((htargets.append (.ofList (by decide))).append (Expr.neutral_text value h.2)).append hend
  | run e => exact (Expr.neutral_text e h).append hend
  | capture place slots target =>
    have hopen : ∀ due, (Scan.mk .code due).run " = \x7bdata = \x7b".toList =
        some ⟨.code, '\x7d' :: '\x7d' :: due⟩ := fun _ => Scan.run_ofList rfl
    have htarget : ∀ due, (Scan.mk .code ('\x7d' :: due)).run "\x7d, target = ".toList =
        some ⟨.code, due⟩ := fun _ => Scan.run_ofList rfl
    have hframe : Neutral ", frame = " := .ofList (by decide)
    have hjump : Neutral "__setjmp_frame__" := .ofList (by decide)
    have hclose : ∀ due, (Scan.mk .code ('\x7d' :: due)).run ", result = 0\x7d;".toList =
        some ⟨.code, due⟩ := fun _ => Scan.run_ofList rfl
    intro due
    have hdata := Scan.run_texts (Scan.run_texts (Expr.neutral_text place h due) (hopen due))
      (neutral_snapshot slots _)
    have hplace := Scan.run_texts (Scan.run_texts hdata (htarget _))
      (Quoted.neutral_string target.text _)
    exact Scan.run_texts (Scan.run_texts (Scan.run_texts hplace (hframe _)) (hjump _)) (hclose due)
  | goto target =>
    exact (Neutral.append (s := "goto ") (.ofList (by decide)) target.neutral_text).append hend
  | ret values =>
    cases values with
    | nil => exact .ofList (by decide)
    | cons o rest =>
      have hvalues : Neutral (", ".intercalate ((o :: rest).map Operand.text)) := by
        refine neutral_intercalate fun t ht => ?_
        obtain ⟨v, hv, rfl⟩ := List.mem_map.1 ht
        exact h v hv
      have hreturn : Neutral "do return " := .ofList (by decide)
      exact (hreturn.append hvalues).append (.ofList (by decide))

/-! ### Storage -/

@[simp] theorem tidy_globalPlace (slot : Nat) : (globalPlace slot).Tidy := by simp [globalPlace]

theorem tidy_addressOf (hx : x.Tidy) (offset : Nat) : (addressOf x offset).Tidy := by
  unfold addressOf
  split <;> simp [hx]

theorem tidy_loadNarrow {dest address : Expr} (hd : dest.Tidy) (hm : memory.Tidy)
    (ha : address.Tidy) (width : Width) (signed : Bool) :
    ∀ statements ∈ loadNarrow dest memory address width signed, ∀ s ∈ statements, s.Tidy := by
  intro statements hs s hmem
  obtain ⟨h, -, rfl⟩ := Option.map_eq_some_iff.1 hs
  obtain rfl | hmem := List.mem_cons.1 hmem
  · simp [Stmt.Tidy, hd, hm, ha]
  · split at hmem
    · obtain rfl := List.mem_singleton.1 hmem
      simp [Stmt.Tidy, hd]
    · simp at hmem

theorem tidy_lowerLoad {dest address : Expr} (hd : dest.Tidy) (hm : memory.Tidy) (ha : address.Tidy)
    (type : ValueType) (width : Width) (signed : Bool) :
    ∀ statements ∈ lowerLoad dest type width signed memory address, ∀ s ∈ statements, s.Tidy := by
  have hnarrow := tidy_loadNarrow hd hm ha width signed
  unfold lowerLoad
  split
  · exact hnarrow
  · simp (disch := exact isPlain_ofList rfl) [Stmt.Tidy, Tidy, hd, hm, ha, isPlain]
  · intro statements hs s hmem
    obtain ⟨front, hfront, rfl⟩ := Option.map_eq_some_iff.1 hs
    obtain hmem | hmem := List.mem_append.1 hmem
    · exact hnarrow front hfront s hmem
    · obtain rfl := List.mem_singleton.1 hmem
      refine ⟨⟨hd, trivial⟩, (tidy_callHelper _ _).2 ⟨hd, ?_, trivial⟩⟩
      split
      · exact (tidy_callField _ (isPlain_ofList rfl) (isPlain_ofList rfl)).2 ⟨hd, trivial, trivial⟩
      · trivial
  · simp [Stmt.Tidy, hd, hm, ha]
  · simp [Stmt.Tidy, hd, hm, ha]
  · simp
  · simp

theorem tidy_lowerStore {address value : Expr} (hm : memory.Tidy) (ha : address.Tidy)
    (hv : value.Tidy) (type : ValueType) (width : Width) :
    ∀ s ∈ lowerStore type width memory address value, s.Tidy := by
  unfold lowerStore
  split <;> simp (disch := exact isPlain_ofList rfl) [Stmt.Tidy, tidy_callMethod, hm, ha, hv]

theorem tidy_memorySize (hm : memory.Tidy) : (memorySize memory).Tidy :=
  ⟨hm, isPlain_ofList rfl⟩

theorem tidy_memoryGrow {delta : Expr} (hm : memory.Tidy) (hd : delta.Tidy) :
    (memoryGrow memory delta).Tidy := by
  simp [memoryGrow, hm, hd]

/-! ## Lines -/

namespace Line

/-- All expressions of the line are tidy, and a comment is one line. -/
def Tidy : Line → Prop
  | stmt s => s.Tidy
  | guard condition s => condition.Tidy ∧ s.Tidy
  | choice condition s t => condition.Tidy ∧ s.Tidy ∧ t.Tidy
  | ifThen condition | elseIf condition => condition.Tidy
  | arm _ condition s => condition.Tidy ∧ s.Tidy
  | label _ | otherwise | forever | leave | close | declare _ => True
  | comment text => OneLine text

theorem neutral_text {l : Line} (h : l.Tidy) (hc : ∀ t, l ≠ .comment t) : Neutral l.text := by
  have hif : Neutral "if " := .ofList (by decide)
  have helseif : Neutral "elseif " := .ofList (by decide)
  have hthen : Neutral " then " := .ofList (by decide)
  have hend : Neutral " end" := .ofList (by decide)
  have hopen : Neutral " then" := .ofList (by decide)
  have hcolons : Neutral "::" := .ofList (by decide)
  cases l with
  | stmt s => exact Stmt.neutral_text h
  | label l => exact (hcolons.append l.neutral_text).append hcolons
  | guard c s =>
    exact (((hif.append (Expr.neutral_text c h.1)).append hthen).append
      (Stmt.neutral_text h.2)).append hend
  | choice c s t =>
    exact (((((hif.append (Expr.neutral_text c h.1)).append hthen).append
      (Stmt.neutral_text h.2.1)).append (.ofList (by decide))).append
        (Stmt.neutral_text h.2.2)).append hend
  | ifThen c => exact (hif.append (Expr.neutral_text c h)).append hopen
  | elseIf c => exact (helseif.append (Expr.neutral_text c h)).append hopen
  | arm first c s =>
    have hfirst : Neutral (if first then "if " else "elseif ") := by split <;> assumption
    exact ((hfirst.append (Expr.neutral_text c h.1)).append hthen).append (Stmt.neutral_text h.2)
  | otherwise | forever | leave | close => exact .ofList (by decide)
  | declare slots =>
    have hslots : Neutral (", ".intercalate (slots.map slotName)) := by
      refine neutral_intercalate fun t ht => ?_
      obtain ⟨n, -, rfl⟩ := List.mem_map.1 ht
      exact (firm_slotName n).neutral
    have hlocal : Neutral "local " := .ofList (by decide)
    exact (hlocal.append hslots).append (.ofList (by decide))
  | comment t => exact absurd rfl (hc t)

theorem run_indentation (n : Nat) (due : List Char) :
    (Scan.mk .code due).run (indentation n).toList = some ⟨.code, due⟩ := by
  refine Scan.run_of_isPlain (fun c hc => ?_) due
  rw [indentation, String.toList_ofList] at hc
  rw [List.eq_of_mem_replicate hc]
  decide

theorem run_rest {cs : List Char} (h : ∀ c ∈ cs, Scan.isBreak c = false) (due : List Char) :
    (Scan.mk .rest due).run cs = some ⟨.rest, due⟩ := by
  induction cs with
  | nil => rfl
  | cons c cs ih =>
    have hnext : (Scan.mk .rest due).next c = some ⟨.rest, due⟩ := by
      simp [Scan.next, h c (by simp)]
    rw [Scan.run, hnext]
    exact ih fun d hd => h d (by simp [hd])

/-- A tidy line is read to its end, where nothing is open. -/
theorem run_text {l : Line} (h : l.Tidy) (n : Nat) : ∃ mode, (mode = .code ∨ mode = .rest) ∧
    (Scan.mk .code []).run (indentation n ++ l.text).toList = some ⟨mode, []⟩ := by
  by_cases hc : ∃ t, l = .comment t
  · obtain ⟨t, rfl⟩ := hc
    have hmark : (Scan.mk .code []).run "-- ".toList = some ⟨.rest, []⟩ := Scan.run_ofList rfl
    have htext : (Scan.mk .code []).run (Line.comment t).text.toList = some ⟨.rest, []⟩ :=
      Scan.run_texts hmark (run_rest h [])
    exact ⟨.rest, .inr rfl, Scan.run_texts (run_indentation n []) htext⟩
  · have htext := neutral_text h fun t ht => hc ⟨t, ht⟩
    exact ⟨.code, .inl rfl, Scan.run_texts (run_indentation n []) (htext [])⟩

/-- The line that takes the negative of a missing operand. -/
def damaged (slot : Nat) : Line := .stmt (.assign [.slot slot] (.paren (.negate (.operand .missing))))

/-- The dashes of the sign and of the marker begin a comment that takes the rest of the line. -/
theorem run_damaged (slot n : Nat) :
    (Scan.mk .code []).run (indentation n ++ (damaged slot).text).toList =
      some ⟨.rest, [')']⟩ := by
  have hopen : (Scan.mk .code []).run "(".toList = some ⟨.code, [')']⟩ := Scan.run_ofList rfl
  have hsign : (Scan.mk .code [')']).run "-".toList = some ⟨.dash, [')']⟩ := Scan.run_ofList rfl
  -- the first dash of the marker completes the comment's beginning, and its bracket comes too late
  have hmarker : (Scan.mk .dash [')']).run Operand.missing.text.toList = some ⟨.rest, [')']⟩ :=
    Scan.run_ofList rfl
  have hrest : ∀ t : String, OneLine t → (Scan.mk .rest [')']).run t.toList = some ⟨.rest, [')']⟩ :=
    fun t ht => run_rest ht _
  have hassign : Neutral (slotName slot ++ " = ") :=
    (firm_slotName slot).neutral.append (.ofList (by decide))
  have hvalue := Scan.run_texts (Scan.run_texts hopen (Scan.run_texts hsign hmarker))
    (hrest ")" (.ofList (by decide)))
  have htext : (Scan.mk .code []).run (damaged slot).text.toList = some ⟨.rest, [')']⟩ :=
    Scan.run_texts (Scan.run_texts (hassign []) hvalue) (hrest ";" (.ofList (by decide)))
  exact Scan.run_texts (run_indentation n []) htext

theorem unbalanced_damaged (slot n : Nat) :
    balanced (indentation n ++ (damaged slot).text) = false := by
  rw [balanced, run_damaged]
  rfl

/-- A line that is tidy, or the one that is not. -/
def Clear (l : Line) : Prop := l.Tidy ∨ ∃ slot, l = damaged slot

theorem Clear.oneLine {l : Line} (h : l.Clear) (n : Nat) : OneLine (indentation n ++ l.text) := by
  obtain h | ⟨slot, rfl⟩ := h
  · obtain ⟨mode, -, hrun⟩ := run_text h n
    exact Scan.not_isBreak_of_run hrun
  · exact Scan.not_isBreak_of_run (run_damaged slot n)

theorem Clear.unbalanced_iff {l : Line} (h : l.Clear) (n : Nat) :
    balanced (indentation n ++ l.text) = false ↔ ∃ slot, l = damaged slot := by
  constructor
  · intro hb
    obtain h | h := h
    · obtain ⟨mode, hmode, hrun⟩ := run_text h n
      rw [balanced, hrun] at hb
      obtain rfl | rfl := hmode <;> cases hb
    · exact h
  · rintro ⟨slot, rfl⟩
    exact unbalanced_damaged slot n

end Line

end Moonstack
