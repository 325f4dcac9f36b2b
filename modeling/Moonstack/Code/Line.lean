import Moonstack.Code.Expr

/-!
# Lines

The statements of a function body. Structured control flow is written with labels and `goto`:

```text
block            loop                       if
-----            ----                       --
<body>           ::loop_N_start::           if c == 0 then goto if_N_else; end
::block_N_fin::  while true do              <then>
                     <body>                 goto if_N_fin;
                     break                  ::if_N_else::
                 end                        <else>
                 ::loop_N_fin::             ::if_N_fin::
```
-/

namespace Moonstack

/-! ## Labels -/

/-- The word in the labels of a structured instruction. -/
def BlockKind.word : BlockKind → String
  | block => "block"
  | loop => "loop"
  | cond => "if"

/-- A structured instruction, as its labels name it. -/
structure BlockName where
  kind : BlockKind
  offset : Nat
deriving DecidableEq

/-- The stem of the labels of a structured instruction. -/
def BlockName.text (b : BlockName) : String := s!"{b.kind.word}_{b.offset}"

/-- A place that a `goto` can name. -/
inductive Label where
  | start (b : BlockName)
  | alternative (b : BlockName)
  | fin (b : BlockName)
  | resume (offset : Nat)
deriving DecidableEq

/-- The name of a label. -/
def Label.text : Label → String
  | start b => b.text ++ "_start"
  | alternative b => b.text ++ "_else"
  | fin b => b.text ++ "_fin"
  | resume offset => s!"jmp_{offset}"

/-! ## Statements -/

/-- The parameter that carries the record of a long jump. -/
def jumpRecord : String := "__setjmp_data__"

/-- The parameter that names the running call of a function. -/
def jumpFrame : String := "__setjmp_frame__"

/-- A statement that opens and closes nothing. -/
inductive Stmt where
  | assign (targets : List Expr) (value : Expr)
  | run (e : Expr)
  /-- stores a record of all slots below `slots`, to go on at the label -/
  | capture (place : Expr) (slots : Nat) (target : Label)
  | goto (target : Label)
  | ret (values : List Operand)

/-- The fields of a record that hold the slots. -/
def Stmt.snapshot (slots : Nat) : String :=
  ", ".intercalate ((List.range slots).map fun n => slotName n ++ " = " ++ slotName n)

/-- The text of a statement. -/
def Stmt.text : Stmt → String
  | assign targets value => ", ".intercalate (Expr.texts targets) ++ " = " ++ value.text ++ ";"
  | run e => e.text ++ ";"
  | capture place slots target =>
    place.text ++ " = \x7bdata = \x7b" ++ snapshot slots ++ "\x7d, target = " ++
      Quoted.string target.text ++ ", frame = " ++ jumpFrame ++ ", result = 0\x7d;"
  | goto target => "goto " ++ target.text ++ ";"
  | ret [] => "do return end"
  | ret values => "do return " ++ ", ".intercalate (values.map Operand.text) ++ " end"

/-! ## Lines -/

/-- What takes a line of a function body. -/
inductive Line where
  | stmt (s : Stmt)
  | label (l : Label)
  | guard (condition : Expr) (s : Stmt)
  | choice (condition : Expr) (s t : Stmt)
  | ifThen (condition : Expr)
  | elseIf (condition : Expr)
  /-- opens an arm of an `if` and fills it with a statement -/
  | arm (first : Bool) (condition : Expr) (s : Stmt)
  | otherwise
  | forever
  | leave
  | close
  | declare (slots : List Nat)
  | comment (text : String)

/-- The text of a line, without its indentation. -/
def Line.text : Line → String
  | stmt s => s.text
  | label l => "::" ++ l.text ++ "::"
  | guard condition s => "if " ++ condition.text ++ " then " ++ s.text ++ " end"
  | choice condition s t =>
    "if " ++ condition.text ++ " then " ++ s.text ++ " else " ++ t.text ++ " end"
  | ifThen condition => "if " ++ condition.text ++ " then"
  | elseIf condition => "elseif " ++ condition.text ++ " then"
  | arm first condition s =>
    (if first then "if " else "elseif ") ++ condition.text ++ " then " ++ s.text
  | otherwise => "else"
  | forever => "while true do"
  | leave => "break"
  | close => "end"
  | declare slots => "local " ++ ", ".intercalate (slots.map slotName) ++ ";"
  | comment text => "-- " ++ text

/-- A line with its indentation. -/
structure Placed where
  indent : Nat
  line : Line

end Moonstack
