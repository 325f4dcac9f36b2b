import Moonstack.Binary.Section

/-!
# Reading a binary

A binary is a header and sections. `readModule` gives the module, its names attached at the end,
since the names may come after the functions.
-/

namespace Moonstack

namespace Reading

/-- The header of a binary, up to and including the version, whose upper half tells modules from
components. -/
def header : Decoder Nat := do
  let magic ← Decoder.bytes 4
  guard (magic = [0x00, 0x61, 0x73, 0x6d])
  let version ← Decoder.fixed 4
  let layer := version >>> 16
  guard (layer ≤ 1)
  return layer

/-- The head of a section: its kind and the size of its contents. -/
def sectionHead : Decoder (Nat × Nat) := do
  let id ← Decoder.byte
  guard (id < 0x80)
  return (id, ← Decoder.index)

/-- Reads a section. -/
def oneSection (input : Input) (r : Reading) : Logged (Input × Reading) := do
  let ((id, size), left) ← Logged.ofExcept (decode .payload sectionHead input)
  if id = 10 then Logged.ofExcept (code size left r)
  else
    let (contents, rest) ← Logged.ofExcept (decode .payload (Decoder.span size) left)
    let r ← if id = 0 then custom contents r else Logged.ofExcept (plain id contents r)
    return (rest, r)

/-- Reads at most the given number of sections. -/
def sections : Nat → Input → Reading → Logged Reading
  | 0, _, r => return r
  | n + 1, input, r =>
    if input.rest.isEmpty then return r
    else do
      let (rest, r) ← oneSection input r
      sections n rest r

/-- Gives functions the names of their indices, from the given one on. -/
def withNames (names : Names) : Nat → List Field → List Field
  | _, [] => []
  | index, .function f :: rest =>
    .function { f with name := names.function? index } :: withNames names (index + 1) rest
  | index, f :: rest => f :: withNames names index rest

/-- The module of what has been read. -/
def module (r : Reading) : Module where
  name := r.names.module
  types := r.types.toList
  fields := withNames r.names r.importedFunctions r.fields.toList

end Reading

/-- Reads a binary. Each section takes at least one byte. -/
def readModule (bytes : List UInt8) : Logged Module := do
  let (layer, left) ← Logged.ofExcept (decode .payload Reading.header { rest := bytes })
  if layer ≠ 0 then throw (.of .component)
  return (← Reading.sections left.rest.length left {}).module

end Moonstack
