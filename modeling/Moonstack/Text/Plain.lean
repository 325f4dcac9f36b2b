/-!
# Plain text

Text without what a terminal would act on: control characters other than white space, and the
sequences that an escape character begins.

* `Plain.State` says how much of a sequence has been read. `State.next` is its change by a
  character, and `State.shows` says which characters are kept in it.
* Inside a sequence white space is kept too, unless the sequence is a string. The text after it is
  then plain again, but the sequence is still open: it goes on at the next character that plain text
  does not keep.
* `plain` removes all sequences from a text. One that is never closed goes to the end of it.
-/

namespace Moonstack

namespace Plain

/-- Where in a control sequence the text stands. -/
inductive State where
  | ground
  | escape
  /-- after an escape character and characters that come before the last -/
  | escapeTail
  | function
  | device
  | deviceParameters
  | deviceTail
  | string
  | title
deriving DecidableEq

/-- Is a character between two code points? -/
def isBetween (low high : Nat) (c : Char) : Bool := low ≤ c.toNat && c.toNat ≤ high

/-- White space among the control characters. -/
def isBlank (c : Char) : Bool := c = '\t' || c = '\n' || c = '\x0c' || c = '\r'

/-- Is a character outside the first 128? -/
def isWide (c : Char) : Bool := 0x80 ≤ c.toNat

/-- Does the byte of a string terminator occur in a character? -/
def hasTerminator (c : Char) : Bool := (String.utf8EncodeChar c).contains 0x9c

namespace State

/-- Is a character kept? -/
def shows : State → Char → Bool
  | ground, c => isWide c || isBetween 0x20 0x7e c || isBlank c
  | escape, c | escapeTail, c | function, c => isBlank c
  | device, _ | deviceParameters, _ | deviceTail, _ | string, _ | title, _ => false

/-- What an escape character begins, by the character after it. -/
def begun (c : Char) : State :=
  if isBetween 0x20 0x2f c then escapeTail
  else if c = '[' then function
  else if c = ']' then title
  else if c = 'P' then device
  else if c = 'X' || c = '^' || c = '_' then string
  else if isBetween 0x30 0x7e c then ground
  else escape

/-- What a character does to an open sequence, if it ends none by itself. -/
def continued : State → Char → State
  | ground, _ => ground
  | escape, c => begun c
  | escapeTail, c => if isBetween 0x30 0x7e c then ground else escapeTail
  | function, c => if isBetween 0x40 0x7e c then ground else function
  | device, c =>
    if isBetween 0x20 0x2f c then deviceTail
    else if isBetween 0x30 0x3f c then deviceParameters
    else if isBetween 0x40 0x7e c then string
    else device
  | deviceParameters, c =>
    if isBetween 0x20 0x2f c then deviceTail
    else if isBetween 0x3c 0x7e c then string
    else deviceParameters
  | deviceTail, c => if isBetween 0x30 0x7e c then string else deviceTail
  | string, c => if hasTerminator c then ground else string
  | title, c => if c = '\x07' then ground else title

/-- The state after a character that is not kept. An escape character begins a sequence anywhere,
and a character that cancels or substitutes ends it. -/
def next (s : State) (c : Char) : State :=
  if c = '\x1b' then escape else if c = '\x18' || c = '\x1a' then ground else s.continued c

end State

/-- Removes sequences from a text that stands in a state. While text is being kept, characters are
judged as plain text is, whatever the state. -/
def strip : Bool → State → List Char → List Char
  | _, _, [] => []
  | keeping, s, c :: rest =>
    if (if keeping then State.ground else s).shows c then
      c :: strip true (if isWide c then .ground else s) rest
    else strip false (s.next c) rest

end Plain

/-- A text without control characters and sequences. -/
def plain (text : String) : String := String.ofList (Plain.strip false .ground text.toList)

end Moonstack
