/-!
# Writer

A text written line by line, with indentation, which is put in front of the first text of a line, so
an empty line stays empty.
-/

namespace Moonstack

/-- A place in a text under construction. -/
structure Mark where
  offset : Nat
  indent : Nat

/-- A text under construction. -/
structure Writer where
  text : String := ""
  indent : Nat := 0
  atLineStart : Bool := true

/-- The blanks in front of a line. -/
def indentation (n : Nat) : String := String.ofList (List.replicate (4 * n) ' ')

/-! ## Lines of a text -/

/-- Cuts a text into the part of its first bytes and the rest. -/
def splitBytes : Nat → List Char → List Char × List Char
  | _, [] => ([], [])
  | n, c :: cs =>
    if c.utf8Size ≤ n then
      let (front, back) := splitBytes (n - c.utf8Size) cs
      (c :: front, back)
    else ([], c :: cs)

/-- Drops a carriage return at the end. -/
def withoutReturn (line : List Char) : List Char :=
  match line.reverse with
  | '\r' :: rest => rest.reverse
  | _ => line

/-- The lines of a text, given the reversed start of the current line. -/
def splitLines : List Char → List Char → List (List Char)
  | current, [] => if current.isEmpty then [] else [current.reverse]
  | current, c :: cs =>
    if c = '\n' then withoutReturn current.reverse :: splitLines [] cs
    else splitLines (c :: current) cs

/-- The lines of a text. A line ends at a line feed, and a carriage return in front of it is
dropped; what follows the last line feed is a line if it is not empty. -/
def linesOf (text : String) : List String := (splitLines [] text.toList).map String.ofList

/-! ## Writing -/

namespace Writer

/-- Adds text to the current line. -/
def write (w : Writer) (text : String) : Writer :=
  if text.isEmpty then w
  else
    let lead := if w.atLineStart then indentation w.indent else ""
    { w with text := w.text ++ lead ++ text, atLineStart := false }

/-- Ends the current line. -/
def newline (w : Writer) : Writer := { w with text := w.text.push '\n', atLineStart := true }

/-- Adds a line. -/
def line (w : Writer) (text : String) : Writer := (w.write text).newline

/-- Adds lines. -/
def lines (w : Writer) (texts : List String) : Writer := texts.foldl line w

/-- Adds text as it is, without indentation. -/
def raw (w : Writer) (text : String) : Writer :=
  { w with text := w.text ++ text, atLineStart := text.isEmpty || text.endsWith "\n" }

/-- Adds the lines of a text, each at the current indentation. -/
def block (w : Writer) (text : String) : Writer := w.lines (linesOf text)

/-- Indents the lines to come by one more level. -/
def deeper (w : Writer) : Writer := { w with indent := w.indent + 1 }

/-- Indents the lines to come by one level less. -/
def shallower (w : Writer) : Writer := { w with indent := w.indent - 1 }

/-! ## Inserting -/

/-- The place where the text ends now. -/
def mark (w : Writer) : Mark := ⟨w.text.utf8ByteSize, w.indent⟩

/-- Puts whole lines at a place, at the indentation it had. -/
def insertLines (w : Writer) (place : Mark) (texts : List String) : Writer :=
  let (front, back) := splitBytes place.offset w.text.toList
  let added := texts.map fun text => indentation place.indent ++ text ++ "\n"
  { w with text := String.ofList front ++ String.join added ++ String.ofList back }

end Writer

end Moonstack
