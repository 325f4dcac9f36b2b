import Moonstack.Failure

/-!
# Options

What can be chosen about the generated code.
-/

namespace Moonstack

/-! ## Sets, as lists in rising order -/

/-- Inserts an element into a list in rising order, once. -/
def insertOnce {α : Type} [LT α] [DecidableLT α] [DecidableEq α] (a : α) : List α → List α
  | [] => [a]
  | b :: rest =>
    if a < b then a :: b :: rest else if a = b then b :: rest else b :: insertOnce a rest

/-- The elements of a list in rising order, each once. -/
def ascending {α : Type} [LT α] [DecidableLT α] [DecidableEq α] (l : List α) : List α :=
  l.foldr insertOnce []

/-! ## Flags -/

/-- A feature toggle. -/
inductive Flag where
  /-- multiply 32-bit integers exactly, not through a double -/
  | correctMultiply
  /-- comment every register that is given out or taken back -/
  | debugRegisters
  /-- comment every push and pop of the operand stack -/
  | debugStack
  /-- comment every instruction with its mnemonic -/
  | debugInstructions
deriving DecidableEq

namespace Flag

/-- The name of a flag on the command line. -/
def name : Flag → String
  | correctMultiply => "correct-multiply"
  | debugRegisters => "debug-registers"
  | debugStack => "debug-stack"
  | debugInstructions => "debug-instructions"

/-- All flags. -/
def all : List Flag := [correctMultiply, debugRegisters, debugStack, debugInstructions]

/-- The flag of a name. -/
def ofName? (s : String) : Option Flag := all.find? fun f => f.name == s

/-- The flag of a name, which has to be one. -/
def parse (s : String) : Except Failure Flag :=
  match ofName? s with
  | some f => .ok f
  | none => .error (.of (.flag s))

end Flag

/-! ## Options -/

/-- How register slots are given out. -/
inductive Strategy where
  /-- every register has a slot of its own -/
  | virtual
  /-- a slot that is free again is used again, the lowest first -/
  | pooled
deriving DecidableEq

/-- Which debug comments are written. -/
structure Debug where
  registers : Bool := false
  stack : Bool := false
  instructions : Bool := false
deriving DecidableEq

/-- The choices that steer the generated code. -/
structure Options where
  /-- names of the functions to keep, or `none` to keep all; each name once, in rising order -/
  whitelist : Option (List String) := none
  correctMultiply : Bool := false
  debug : Debug := {}
  /-- branch tables with more targets than this become a search tree -/
  bisectAbove : Option Nat := none
  strategy : Strategy := .pooled
  /-- branch tables with more targets than this, the default counted, are refused -/
  branchTableLimit : Nat := 1000
  /-- functions with more counter steps than this are refused -/
  functionLimit : Nat := 1000000

namespace Options

/-- Switches a flag on. -/
def enable (o : Options) : Flag → Options
  | .correctMultiply => { o with correctMultiply := true }
  | .debugRegisters => { o with debug := { o.debug with registers := true } }
  | .debugStack => { o with debug := { o.debug with stack := true } }
  | .debugInstructions => { o with debug := { o.debug with instructions := true } }

end Options

end Moonstack
