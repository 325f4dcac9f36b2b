/-!
# Quoted literals

Two kinds of string literals of the generated code. A numeric escape always has three digits, so
that a digit after it is not taken for part of it.
-/

namespace Moonstack.Quoted

/-- The last digit of a number. -/
def digit (n : Nat) : Char := Char.ofNat (48 + n % 10)

/-- The escape of a code below a thousand, with three digits. -/
def numeric (n : Nat) : List Char := ['\\', digit (n / 100), digit (n / 10), digit n]

/-- A character between double quotes. -/
def character (c : Char) : List Char :=
  if c = '"' then ['\\', '"']
  else if c = '\\' then ['\\', '\\']
  else if c = '\n' then ['\\', 'n']
  else if c = '\r' then ['\\', 'r']
  else if c.toNat < 32 ∨ c.toNat = 127 then numeric c.toNat
  else [c]

/-- A text in double quotes. Quotes, backslashes and control characters are escaped, so the literal
is one line. -/
def string (text : String) : String :=
  String.ofList ('"' :: text.toList.flatMap character ++ ['"'])

/-- A byte between single quotes. -/
def byte (b : UInt8) : List Char :=
  if b = 39 then ['\\', '\'']
  else if b = 92 then ['\\', '\\']
  else if 32 ≤ b ∧ b ≤ 126 then [Char.ofNat b.toNat]
  else numeric b.toNat

/-- Bytes in single quotes; every byte that is not printable ASCII is escaped. -/
def bytes (bs : List UInt8) : String := String.ofList ('\'' :: bs.flatMap byte ++ ['\''])

end Moonstack.Quoted
