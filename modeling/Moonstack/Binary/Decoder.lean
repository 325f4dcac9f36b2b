/-!
# Decoders

Reading values off the front of a sequence of bytes. The position in the file is kept, since labels
are made from it.

Numbers are written in groups of seven bits, the lowest first. They may have more groups than
needed, up to the number that the width allows, and must be in range.
-/

namespace Moonstack

/-- Bytes to be read, and the place of the first of them in the file. -/
structure Input where
  rest : List UInt8
  position : Nat := 0

/-- Reads a value off the front of an input, or fails. -/
abbrev Decoder := StateT Input Option

namespace Decoder

/-! ## Bytes -/

/-- The next byte. -/
def byte : Decoder Nat := fun input =>
  match input.rest with
  | [] => none
  | b :: rest => some (b.toNat, ⟨rest, input.position + 1⟩)

/-- The next byte, which stays. -/
def peek : Decoder Nat := fun input => input.rest.head?.map fun b => (b.toNat, input)

/-- The place of the next byte in the file. -/
def position : Decoder Nat := return (← get).position

/-- A number of bytes, as an input of its own. -/
def span (count : Nat) : Decoder Input := fun input =>
  let (front, back) := input.rest.splitAt count
  if front.length = count then
    some (⟨front, input.position⟩, ⟨back, input.position + count⟩)
  else none

/-- A number of bytes. -/
def bytes (count : Nat) : Decoder (List UInt8) := return (← span count).rest

/-- Runs a decoder that has to read an input to its end. -/
def runWhole {α : Type} (d : Decoder α) (input : Input) : Option α := do
  let (a, left) ← d input
  if left.rest.isEmpty then some a else none

/-! ## Numbers -/

/-- An unsigned number of the given width in at most the given number of groups. -/
def unsignedGroups : Nat → Nat → Decoder Nat
  | 0, _ => failure
  | groups + 1, width => do
    let b ← byte
    let low := b % 128
    if b < 128 then
      guard (low < 2 ^ width)
      return low
    else
      let high ← unsignedGroups groups (width - 7)
      return low + 128 * high

/-- An unsigned number of the given width. -/
def unsigned (width : Nat) : Decoder Nat := unsignedGroups ((width + 6) / 7) width

/-- A signed number of the given width in at most the given number of groups. The highest bit of the
last group is the sign. -/
def signedGroups : Nat → Nat → Decoder Int
  | 0, _ => failure
  | groups + 1, width => do
    let b ← byte
    let low := b % 128
    if b < 128 then
      let value : Int := if low < 64 then low else (low : Int) - 128
      guard (-(2 ^ (width - 1) : Int) ≤ value ∧ value < 2 ^ (width - 1))
      return value
    else
      let high ← signedGroups groups (width - 7)
      return low + 128 * high

/-- A signed number of the given width. -/
def signed (width : Nat) : Decoder Int := signedGroups ((width + 6) / 7) width

/-- An index, a count or a size. -/
def index : Decoder Nat := unsigned 32

/-- A 33-bit signed number that has to be an index. -/
def signedIndex : Decoder Nat := do
  let n ← signed 33
  guard (0 ≤ n)
  return n.toNat

/-- The number that bytes make up, the lowest byte first. -/
def littleEndian : List UInt8 → Nat
  | [] => 0
  | b :: rest => b.toNat + 256 * littleEndian rest

/-- A number of the given count of bytes, the lowest first. -/
def fixed (count : Nat) : Decoder Nat := return littleEndian (← bytes count)

/-! ## Vectors and names -/

/-- A number of values. -/
def times {α : Type} (d : Decoder α) : Nat → Decoder (List α)
  | 0 => return []
  | n + 1 => do
    let a ← d
    let rest ← times d n
    return a :: rest

/-- A count, which must not exceed the limit, and as many values. -/
def vectorUpTo {α : Type} (limit : Nat) (d : Decoder α) : Decoder (List α) := do
  let count ← index
  guard (count ≤ limit)
  times d count

/-- A count and as many values. -/
def vector {α : Type} (d : Decoder α) : Decoder (List α) := vectorUpTo (1 <<< 32) d

/-- A size and as many bytes, as an input of its own. -/
def sized : Decoder Input := do span (← index)

/-- The most bytes that a name may have. -/
def nameLimit : Nat := 100000

/-- A name: its size, and as many bytes of text. -/
def name : Decoder String := do
  let size ← index
  guard (size ≤ nameLimit)
  let text ← bytes size
  match String.fromUTF8? ⟨text.toArray⟩ with
  | some s => return s
  | none => failure

end Decoder

end Moonstack
