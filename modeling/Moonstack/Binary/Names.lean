import Moonstack.Binary.Decoder

/-!
# Names

The section that gives names to the module and to its functions. It cannot make a binary unreadable:
what cannot be decoded is left out, and a later name takes the place of an earlier one.
-/

namespace Moonstack

/-- The names that a binary gives. -/
structure Names where
  module : Option String := none
  functions : List (Nat × String) := []

namespace Names

/-- The name of a function. -/
def function? (names : Names) (index : Nat) : Option String := names.functions.lookup index

/-- Adds names of functions up to the first entry that cannot be decoded. -/
def addFunctions (names : Names) : Nat → Input → Names
  | 0, _ => names
  | n + 1, input =>
    let entry : Decoder (Nat × String) := do
      let index ← Decoder.index
      return (index, ← Decoder.name)
    match entry input with
    | none => names
    | some (entry, left) => { names with functions := entry :: names.functions }.addFunctions n left

/-- Adds the names of a subsection, if it is about functions. -/
def addSubsection (names : Names) (id : Nat) (contents : Input) : Option Names :=
  if id = 0 then do
    let module ← Decoder.name.runWhole contents
    return { names with module }
  else if id ≤ 11 then do
    let (count, left) ← Decoder.index contents
    return if id = 1 then names.addFunctions count left else names
  else some names

/-- A subsection: its number and its contents. -/
def subsection : Decoder (Nat × Input) := do
  let id ← Decoder.byte
  guard (id < 0x80)
  return (id, ← Decoder.sized)

/-- Adds the names of at most the given number of subsections. Says whether all could be read. -/
def addSubsections (names : Names) : Nat → Input → Names × Bool
  | 0, _ => (names, true)
  | n + 1, input =>
    if input.rest.isEmpty then (names, true)
    else
      match subsection input with
      | none => (names, false)
      | some ((id, contents), left) =>
        match names.addSubsection id contents with
        | none => (names, false)
        | some names => names.addSubsections n left

/-- Adds the names of a section. Each subsection takes at least one byte. -/
def addSection (names : Names) (contents : Input) : Names × Bool :=
  names.addSubsections contents.rest.length contents

end Names

end Moonstack
