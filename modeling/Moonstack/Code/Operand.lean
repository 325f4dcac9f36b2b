import Moonstack.Instr
import Moonstack.Number.LongInt
import Moonstack.Prelude.Helper
import Moonstack.Text.Numeral

/-!
# Operands

What an instruction's operand becomes in the generated code: the Lua local of a register slot, a
literal, or a marker where the operand stack had nothing to give.
-/

namespace Moonstack

/-- The Lua local of a register slot. -/
def slotName (slot : Nat) : String := s!"reg{slot}"

/-- A constant in the generated code. A 64-bit integer is built from its halves, and a
single-precision number is written with its exact value. -/
def Const.text : Const → String
  | i32 value => Numeral.int value.toInt
  | i64 value =>
    let halves := LongInt.ofInt64 value
    s!"{Helper.longInt.name}({Numeral.signed halves.low.toInt}, {Numeral.signed halves.high.toInt})"
  | f32 bits => Numeral.float (Binary64.promote bits)
  | f64 bits => Numeral.float ⟨bits⟩

/-- A text without registers in it. -/
inductive Literal where
  | const (value : Const)
  | nil
  | raw (text : String)
deriving DecidableEq

/-- The text of a literal. -/
def Literal.text : Literal → String
  | const value => value.text
  | nil => "nil"
  | raw text => text

/-- An operand of the generated code. -/
inductive Operand where
  | slot (n : Nat)
  | literal (l : Literal)
  /-- stands where the operand stack had nothing to give -/
  | missing
deriving DecidableEq

/-- The text of an operand. -/
def Operand.text : Operand → String
  | slot n => slotName n
  | literal l => l.text
  | missing => "--[[WARNING: NEGATIVE POP]] nil"

end Moonstack
