import Mathlib.Data.List.Basic
import Moonstack.Code.Operand

/-!
# Integer constants read back

A reader of decimal numbers as the generated code writes them (`Numeral.read`), and what it makes of
integer constants (`read_text`): a 32-bit one is read as itself, and a 64-bit one is a call with two
numbers that are the halves of the constant.

Splitting into halves and joining them are inverse to each other (`toInt64_ofInt64`,
`ofInt64_toInt64`): the upper half is the quotient by `2 ^ 32`, and the lower half has the remainder
as its unsigned value.
-/

namespace Moonstack

namespace Numeral

def readDigits (cs : List Char) : Option Int :=
  if cs ≠ [] ∧ cs.all Char.isDigit then some (Nat.ofDigitChars 10 cs 0) else none

/-- Reads digits that may have a sign in front. -/
def readSigned (cs : List Char) : Option Int :=
  if cs.head? = some '-' then (readDigits cs.tail).map (- ·) else readDigits cs

/-- Reads a number that may have a sign and stand in parentheses. -/
def read (text : String) : Option Int :=
  if text.toList.head? = some '(' ∧ text.toList.getLast? = some ')' then
    readSigned text.toList.tail.dropLast
  else readSigned text.toList

theorem isDigit_of_mem_toDigits {n : Nat} {c : Char} (h : c ∈ Nat.toDigits 10 n) :
    c.isDigit = true :=
  Nat.isDigit_of_mem_toDigits (by decide) (by decide) h

theorem readDigits_toDigits (n : Nat) : readDigits (Nat.toDigits 10 n) = some (n : Int) := by
  have hall : (Nat.toDigits 10 n).all Char.isDigit = true :=
    List.all_eq_true.2 fun _ => isDigit_of_mem_toDigits
  rw [readDigits, if_pos ⟨Nat.toDigits_ne_nil, hall⟩, Nat.ofDigitChars_ten_toDigits]

theorem head?_toDigits (n : Nat) {c : Char} (hc : c.isDigit = false) :
    (Nat.toDigits 10 n).head? ≠ some c := by
  intro h
  simp [isDigit_of_mem_toDigits (List.mem_of_mem_head? h)] at hc

theorem toList_signed (n : Int) : (signed n).toList =
    if n < 0 then '-' :: Nat.toDigits 10 n.natAbs else Nat.toDigits 10 n.natAbs := by
  unfold signed
  split <;> simp

theorem readSigned_signed (n : Int) : readSigned (signed n).toList = some n := by
  rw [toList_signed, readSigned]
  split
  · rw [List.head?_cons, if_pos rfl, List.tail_cons, readDigits_toDigits, Option.map_some]
    exact congrArg some (by omega)
  · rw [if_neg (head?_toDigits _ (by decide)), readDigits_toDigits]
    exact congrArg some (by omega)

theorem read_signed (n : Int) : read (signed n) = some n := by
  have hhead : (signed n).toList.head? ≠ some '(' := by
    rw [toList_signed]
    split
    · simp
    · exact head?_toDigits _ (by decide)
  rw [read, if_neg fun h => hhead h.1, readSigned_signed]

theorem read_int (n : Int) : read (int n) = some n := by
  unfold int guarded
  split
  · have htext : ("(" ++ signed n ++ ")").toList = '(' :: (signed n).toList ++ [')'] := by simp
    rw [read, htext, if_pos ⟨rfl, List.getLast?_concat⟩, List.cons_append, List.tail_cons,
      List.dropLast_concat, readSigned_signed]
  · exact read_signed n

end Numeral

namespace LongInt

theorem modulus_eq : (Word.modulus : Int) = 4294967296 := rfl

theorem toUnsigned_eq (a : Int32) : (Word.toUnsigned a : Int) = a.toInt % Word.modulus := by
  have h : a.toInt = (a.toBitVec.toNat : Int).bmod Word.modulus := BitVec.toInt_eq_toNat_bmod _
  rw [h, Int.bmod_emod]
  exact (Int.emod_eq_of_lt (by omega) (Int.ofNat_lt.2 a.toBitVec.isLt)).symm

theorem toInt_shiftRight (n : Int64) : (n >>> 32).toInt = n.toInt / Word.modulus := by
  have h : (n >>> 32).toInt = (n.toBitVec.sshiftRight 32).toInt := rfl
  rw [h, BitVec.toInt_sshiftRight, Int.shiftRight_eq_div_pow]
  rfl

theorem toInt_toInt64 (p : LongInt) :
    p.toInt64.toInt = p.high.toInt * Word.modulus + p.low.toInt % Word.modulus := by
  have hlow := p.high.le_toInt
  have hhigh := p.high.toInt_lt
  rw [toInt64, toUnsigned_eq, modulus_eq]
  apply Int64.toInt_ofInt_of_le <;> omega

theorem toInt_high (n : Int64) : (ofInt64 n).high.toInt = n.toInt / Word.modulus := by
  have hlow := n.le_toInt
  have hhigh := n.toInt_lt
  rw [ofInt64, Int64.toInt_toInt32, toInt_shiftRight, modulus_eq]
  apply Int.bmod_eq_of_le <;> omega

theorem toInt_low (n : Int64) : (ofInt64 n).low.toInt = n.toInt.bmod Word.modulus :=
  Int64.toInt_toInt32 n

theorem toInt64_ofInt64 (n : Int64) : (ofInt64 n).toInt64 = n := by
  rw [← Int64.toInt_inj, toInt_toInt64, toInt_high, toInt_low, Int.bmod_emod]
  exact Int.ediv_mul_add_emod _ _

theorem ofInt64_toInt64 (p : LongInt) : ofInt64 p.toInt64 = p := by
  have hhigh : (ofInt64 p.toInt64).high = p.high := by
    rw [← Int32.toInt_inj, toInt_high, toInt_toInt64, modulus_eq]
    omega
  have hlow : (ofInt64 p.toInt64).low = p.low := by
    rw [← Int32.toInt_inj, toInt_low, toInt_toInt64, Int.mul_add_bmod_self_right, Int.emod_bmod]
    exact Int.bmod_eq_of_le p.low.le_toInt p.low.toInt_lt
  cases p
  cases h : ofInt64 _
  simp_all

end LongInt

namespace Numeral

theorem signed_injective : Function.Injective signed := by
  intro a b h
  have hread := congrArg read h
  rw [read_signed, read_signed] at hread
  exact Option.some.inj hread

theorem comma_notMem_signed (n : Int) : ',' ∉ (signed n).toList := by
  have hdigits : ',' ∉ Nat.toDigits 10 n.natAbs := fun h =>
    Bool.noConfusion (isDigit_of_mem_toDigits h)
  rw [toList_signed]
  split
  · simpa using hdigits
  · exact hdigits

/-- The text is a call with the halves of a 64-bit number, each of them a decimal number. -/
structure Halves (text : String) (value : Int64) (p : LongInt) : Prop where
  eq_call : ∃ low high : String, text = "__LONG_INT__(" ++ low ++ ", " ++ high ++ ")" ∧
    read low = some p.low.toInt ∧ read high = some p.high.toInt
  toInt64_eq : p.toInt64 = value

theorem halves_text (value : Int64) : Halves (Const.i64 value).text value (.ofInt64 value) where
  eq_call := ⟨_, _, rfl, read_signed _, read_signed _⟩
  toInt64_eq := LongInt.toInt64_ofInt64 value

end Numeral

namespace Const

open Numeral

theorem i32_text_inj {a b : Int32} (h : (i32 a).text = (i32 b).text) : a = b := by
  have hread := congrArg read h
  rw [text, text, read_int, read_int] at hread
  exact Int32.toInt_inj.1 (Option.some.inj hread)

/-- Different numbers have different texts. -/
theorem i64_text_inj {a b : Int64} (h : (i64 a).text = (i64 b).text) : a = b := by
  have hchars (v : Int64) : (i64 v).text.toList =
      "__LONG_INT__(".toList ++ ((signed (LongInt.ofInt64 v).low.toInt).toList ++
        ',' :: ' ' :: ((signed (LongInt.ofInt64 v).high.toInt).toList ++ [')'])) := by
    change ("__LONG_INT__(" ++ signed _ ++ ", " ++ signed _ ++ ")").toList = _
    simp only [String.toList_append, List.append_assoc]
    rfl
  have htext := congrArg String.toList h
  rw [hchars, hchars, List.append_cancel_left_eq, List.append_cons_inj_of_notMem
    (comma_notMem_signed _) (by simp [comma_notMem_signed])] at htext
  obtain ⟨hlow, -, hrest⟩ := htext
  have hhigh := List.append_cancel_right (List.cons.inj hrest).2
  have hhalf {x y : Int32} (h : (signed x.toInt).toList = (signed y.toInt).toList) : x = y :=
    Int32.toInt_inj.1 (signed_injective (String.toList_injective h))
  have hhalves : LongInt.ofInt64 a = LongInt.ofInt64 b :=
    congrArg₂ LongInt.mk (hhalf hlow) (hhalf hhigh)
  rw [← LongInt.toInt64_ofInt64 a, hhalves, LongInt.toInt64_ofInt64]

/-- **Integer constants survive emission.** A 32-bit constant is read as itself, and a 64-bit one is
a call with two numbers that make it up. Every pair of numbers is that of the number that it
makes up, and different constants of a type have different texts. -/
theorem read_text :
    (∀ value, read (i32 value).text = some value.toInt) ∧
    (∀ value, ∃ p, Halves (i64 value).text value p) ∧
    (∀ p : LongInt, LongInt.ofInt64 p.toInt64 = p) ∧
    (∀ a b, (i32 a).text = (i32 b).text ↔ a = b) ∧
    (∀ a b, (i64 a).text = (i64 b).text ↔ a = b) :=
  ⟨fun value => read_int value.toInt, fun value => ⟨_, halves_text value⟩, LongInt.ofInt64_toInt64,
    fun _ _ => ⟨i32_text_inj, fun h => h ▸ rfl⟩, fun _ _ => ⟨i64_text_inj, fun h => h ▸ rfl⟩⟩

end Const

end Moonstack
