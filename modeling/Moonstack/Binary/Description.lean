/-!
# Descriptions

Values of a binary in words, for messages. A description is a tree: a word, a name applied to a
value, a name with fields in braces, or a list. `Description.text` is the only place where it
becomes text.
-/

namespace Moonstack

/-- A value in words. -/
inductive Description where
  | word (text : String)
  | applied (name : String) (argument : Description)
  | record (name : String) (fields : List (String × Description))
  | list (items : List Description)

namespace Description

/-- A number. -/
def number (n : Int) : Description := word (toString n)

/-- A list of numbers. -/
def numbers (l : List Nat) : Description := list (l.map fun n : Nat => number n)

mutual

/-- The text of a description. A record without fields is its name. -/
def text : Description → String
  | word t => t
  | applied name argument => name ++ "(" ++ argument.text ++ ")"
  | record name fields =>
    if fields.isEmpty then name
    else name ++ " \x7b " ++ ", ".intercalate (fieldTexts fields) ++ " \x7d"
  | list items => "[" ++ ", ".intercalate (itemTexts items) ++ "]"

/-- The texts of fields, each behind its name. -/
def fieldTexts : List (String × Description) → List String
  | [] => []
  | (name, value) :: rest => (name ++ ": " ++ value.text) :: fieldTexts rest

/-- The texts of the items of a list. -/
def itemTexts : List Description → List String
  | [] => []
  | item :: rest => item.text :: itemTexts rest

end

end Description

end Moonstack
