import Moonstack.Number.Shortest

/-!
# Numerals

How numbers are written in the generated code. A negative number stands in parentheses, so that it
can take any operand position.
-/

namespace Moonstack.Numeral

/-! ## Integers -/

/-- Puts a text in parentheses if it is negative. -/
def guarded (negative : Bool) (text : String) : String :=
  if negative then "(" ++ text ++ ")" else text

/-- An integer, negative ones with their sign. -/
def signed (n : Int) : String := if n < 0 then "-" ++ toString n.natAbs else toString n.natAbs

/-- An integer. -/
def int (n : Int) : String := guarded (decide (n < 0)) (signed n)

/-! ## Doubles -/

/-- Decimals are positional from this power of ten on. -/
def positionalFrom : Int := -4

/-- Decimals are positional below this power of ten. -/
def positionalBelow : Int := 16

/-- A number of zeros. -/
def zeros (n : Nat) : String := String.ofList (List.replicate n '0')

/-- A decimal without an exponent, with at least one digit on either side of the point: the digits
`ds`, the first of which counts `10 ^ lead`. -/
def positional (ds : List Char) (lead : Int) : String :=
  if lead < 0 then "0." ++ zeros ((-lead).toNat - 1) ++ String.ofList ds
  else
    let whole := lead.toNat + 1
    let rest := ds.drop whole
    String.ofList (ds.take whole) ++ zeros (whole - ds.length) ++ "." ++
      (if rest.isEmpty then "0" else String.ofList rest)

/-- A decimal with an exponent; a single digit has no point. -/
def scientific (ds : List Char) (lead : Int) : String :=
  let rest := ds.drop 1
  String.ofList (ds.take 1) ++ (if rest.isEmpty then "" else "." ++ String.ofList rest) ++ "e" ++
    signed lead

/-- Digits without the zeros at their end. -/
def withoutTrailingZeros (ds : List Char) : List Char :=
  (ds.reverse.dropWhile (· == '0')).reverse

/-- A decimal: positional unless its leading digit stands too far to the left or the right. -/
def decimal (d : Decimal) : String :=
  let all := Nat.toDigits 10 d.digits
  let lead := d.exponent + (all.length - 1 : Nat)
  let ds := withoutTrailingZeros all
  if positionalFrom ≤ lead ∧ lead < positionalBelow then positional ds lead else scientific ds lead

/-- A finite double without its sign. -/
def unsignedFloat (x : Binary64) : String :=
  if x.magnitude = 0 then "0.0" else decimal x.shortest

/-- A double: the shortest decimal that reads back. What has no numeral is an expression:
`math.huge` for infinity and `(0/0)` for a NaN. -/
def float (x : Binary64) : String :=
  if x.isNaN then "(0/0)"
  else if !x.isFinite then if x.negative then "(-math.huge)" else "math.huge"
  else if x.negative then "(-" ++ unsignedFloat x ++ ")" else unsignedFloat x

end Moonstack.Numeral
