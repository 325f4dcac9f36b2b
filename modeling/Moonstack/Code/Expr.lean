import Moonstack.Code.Operand
import Moonstack.Text.Identifier
import Moonstack.Text.Quoted

/-!
# Expressions

The expressions of the generated code, as a tree. Parentheses are part of the tree: `Expr.text` puts
none of its own, so a tree is written the way it was built.
-/

namespace Moonstack

/-! ## Syntax -/

/-- A binary operator of Lua. -/
inductive InfixOp where
  | add | sub | mul | div | eq | ne | lt | gt | le | ge | and | or
deriving DecidableEq

/-- The spelling of a binary operator. -/
def InfixOp.text : InfixOp → String
  | add => "+"
  | sub => "-"
  | mul => "*"
  | div => "/"
  | eq => "=="
  | ne => "~="
  | lt => "<"
  | gt => ">"
  | le => "<="
  | ge => ">="
  | and => "and"
  | or => "or"

/-- An expression of the generated code. -/
inductive Expr where
  | operand (o : Operand)
  | name (text : String)
  | number (n : Nat)
  | string (text : String)
  | bytes (bs : List UInt8)
  | paren (e : Expr)
  | negate (e : Expr)
  | binary (op : InfixOp) (left right : Expr)
  | field (e : Expr) (key : String)
  | index (e key : Expr)
  | call (function : Expr) (args : List Expr)
  | method (receiver : Expr) (key : String) (args : List Expr)
  | table (items : List Expr)

/-! ## Texts -/

namespace Expr

mutual

/-- The text of an expression. -/
def text : Expr → String
  | operand o => o.text
  | name t => t
  | number n => toString n
  | string t => Quoted.string t
  | bytes bs => Quoted.bytes bs
  | paren e => "(" ++ e.text ++ ")"
  | negate e => "-" ++ e.text
  | binary op left right => left.text ++ " " ++ op.text ++ " " ++ right.text
  | field e key => e.text ++ "." ++ key
  | index e key => e.text ++ "[" ++ key.text ++ "]"
  | call function args => function.text ++ "(" ++ ", ".intercalate (texts args) ++ ")"
  | method receiver key args =>
    receiver.text ++ ":" ++ key ++ "(" ++ ", ".intercalate (texts args) ++ ")"
  | table items => "\x7b" ++ ", ".intercalate (texts items) ++ "\x7d"

/-- The texts of expressions. -/
def texts : List Expr → List String
  | [] => []
  | e :: rest => e.text :: texts rest

end

/-! ## Common forms -/

/-- The Lua local of a slot. -/
def slot (n : Nat) : Expr := operand (.slot n)

/-- A helper of the prelude. -/
def helper (h : Helper) : Expr := name h.name

/-- A call of a helper. -/
def callHelper (h : Helper) (args : List Expr) : Expr := call (helper h) args

/-- A call of a function that a library table holds. -/
def callField (library key : String) (args : List Expr) : Expr :=
  call (field (name library) key) args

/-- A call of a method. -/
def callMethod (receiver : Expr) (key : String) (args : List Expr) : Expr :=
  method (paren receiver) key args

/-- A field by name, with a dot if the name is an identifier. -/
def member (e : Expr) (key : String) : Expr :=
  if Identifier.isValid key then field e key else index e (string key)

/-- One if the condition holds, and zero if not. -/
def flag (condition : Expr) : Expr :=
  binary .or (binary .and (paren condition) (number 1)) (number 0)

/-- A call that stops the program with a message. -/
def error (message : String) : Expr := call (name "error") [string message]

end Expr

end Moonstack
