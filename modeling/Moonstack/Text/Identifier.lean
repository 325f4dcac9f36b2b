import Moonstack.Prelude.Helper

/-!
# Identifiers

Names in a binary are arbitrary texts; functions of the generated code need Lua identifiers.
-/

namespace Moonstack.Identifier

/-! ## Identifiers -/

/-- The keywords of Lua. -/
def keywords : List String :=
  ["and", "break", "do", "else", "elseif", "end", "false", "for", "function", "goto", "if", "in",
    "local", "nil", "not", "or", "repeat", "return", "then", "true", "until", "while"]

/-- Globals that the generated code or the standard library of Lua needs. -/
def reserved : List String :=
  ["assert", "collectgarbage", "dofile", "error", "getfenv", "getmetatable", "ipairs", "load",
    "loadfile", "loadstring", "module", "next", "pairs", "pcall", "print", "rawequal", "rawget",
    "rawlen", "rawset", "require", "select", "setfenv", "setmetatable", "tonumber", "tostring",
    "type", "unpack", "xpcall", "_G", "_ENV", "_VERSION", "arg",
    "bit", "coroutine", "debug", "ffi", "io", "jit", "math", "os", "package", "string", "table",
    "utf8",
    "__setjmp_data__", "__setjmp_frame__"]

/-- May the character begin an identifier? -/
def isStart (c : Char) : Bool := c.isAlpha || c == '_'

/-- May the character stand in an identifier? -/
def isPart (c : Char) : Bool := c.isAlphanum || c == '_'

/-- Is the text an identifier that is no keyword? -/
def isValid (name : String) : Bool :=
  match name.toList with
  | [] => false
  | c :: rest => isStart c && rest.all isPart && !keywords.contains name

/-! ## Names with a meaning -/

/-- Is the text the given stem followed by a decimal number? -/
def isNumbered (stem name : List Char) : Bool :=
  stem.isPrefixOf name && !(name.drop stem.length).isEmpty &&
    (name.drop stem.length).all Char.isDigit

/-- Is the name one that locals of the generated code have: a register, a memory or a table? -/
def isGenerated (name : List Char) : Bool :=
  "__TABLE_".toList.isPrefixOf name || isNumbered "reg".toList name || isNumbered "mem_".toList name

/-! ## From names to identifiers -/

/-- The number of a character in hexadecimal. -/
def hexadecimal (n : Nat) : List Char := (Nat.toDigits 16 n).map Char.toUpper

/-- How a character that cannot stand in an identifier is spelled out. -/
def spelling (c : Char) : String :=
  match c with
  | '.' => "DOT"
  | '-' => "MINUS"
  | '$' => "DOLLAR"
  | '@' => "AT"
  | ':' => "COLON"
  | '<' => "LT"
  | '>' => "GT"
  | ' ' => "SPACE"
  | ',' => "COMMA"
  | '*' => "STAR"
  | '&' => "AMP"
  | '(' => "LPAREN"
  | ')' => "RPAREN"
  | '[' => "LBRACKET"
  | ']' => "RBRACKET"
  | '~' => "TILDE"
  | c => "U" ++ String.ofList (hexadecimal c.toNat)

/-- A character as it stands in an identifier. -/
def character (c : Char) : List Char :=
  if isPart c then [c] else ("__IDENT_CHAR_" ++ spelling c ++ "__").toList

/-- Puts an underscore in front of a text that is empty or starts with a digit. -/
def withStart (name : List Char) : List Char :=
  match name with
  | [] => ['_']
  | c :: rest => if c.isDigit then '_' :: c :: rest else c :: rest

/-- Has the name a meaning of its own in the generated code? -/
def isTaken (name : List Char) : Bool :=
  keywords.contains (String.ofList name) || reserved.contains (String.ofList name) ||
    (Helper.all.map Helper.name).contains (String.ofList name) || isGenerated name

/-- Puts an underscore in front of a name that is taken. -/
def untaken (name : List Char) : List Char := if isTaken name then '_' :: name else name

/-- An identifier for any text: a character that cannot stand in one is spelled out, a leading digit
gets an underscore in front, and so does a name that is taken. -/
def sanitize (name : String) : String :=
  String.ofList (untaken (withStart (name.toList.flatMap character)))

end Moonstack.Identifier
