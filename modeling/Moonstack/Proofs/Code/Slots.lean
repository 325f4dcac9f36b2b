import Mathlib.Logic.Basic
import Moonstack.Lowering.Storage

/-!
# Operands and slots in code

The operands of an expression can be listed (`Expr.operands`) and changed (`Expr.mapOperands`). The
slots that occur in code are those of its operands; statements read some and assign others.
-/

namespace Moonstack

def Operand.slots : Operand → List Nat
  | slot n => [n]
  | literal _ | missing => []

namespace Expr

mutual

/-- The operands in an expression, from left to right. -/
def operands : Expr → List Operand
  | operand o => [o]
  | name _ | number _ | string _ | bytes _ => []
  | paren e | negate e | field e _ => e.operands
  | binary _ left right => left.operands ++ right.operands
  | index e key => e.operands ++ key.operands
  | call function args => function.operands ++ allOperands args
  | method receiver _ args => receiver.operands ++ allOperands args
  | table items => allOperands items

/-- The operands in expressions, from left to right. -/
def allOperands : List Expr → List Operand
  | [] => []
  | e :: rest => e.operands ++ allOperands rest

end

mutual

/-- An expression with other operands. -/
def mapOperands (g : Operand → Operand) : Expr → Expr
  | operand o => operand (g o)
  | name t => name t
  | number n => number n
  | string t => string t
  | bytes bs => bytes bs
  | paren e => paren (e.mapOperands g)
  | negate e => negate (e.mapOperands g)
  | binary op left right => binary op (left.mapOperands g) (right.mapOperands g)
  | field e key => field (e.mapOperands g) key
  | index e key => index (e.mapOperands g) (key.mapOperands g)
  | call function args => call (function.mapOperands g) (mapAll g args)
  | method receiver key args => method (receiver.mapOperands g) key (mapAll g args)
  | table items => table (mapAll g items)

/-- Expressions with other operands. -/
def mapAll (g : Operand → Operand) : List Expr → List Expr
  | [] => []
  | e :: rest => e.mapOperands g :: mapAll g rest

end

section

variable (g h : Operand → Operand)

theorem mapAll_eq (es : List Expr) : mapAll g es = es.map (mapOperands g) := by
  induction es with
  | nil => rfl
  | cons e rest ih => rw [mapAll, ih, List.map_cons]

mutual

theorem mapOperands_mapOperands : (e : Expr) →
    (e.mapOperands g).mapOperands h = e.mapOperands (h ∘ g)
  | operand _ | name _ | number _ | string _ | bytes _ => rfl
  | paren e => congrArg paren (mapOperands_mapOperands e)
  | negate e => congrArg negate (mapOperands_mapOperands e)
  | binary op left right =>
    congrArg₂ (binary op) (mapOperands_mapOperands left) (mapOperands_mapOperands right)
  | field e key => congrArg (field · key) (mapOperands_mapOperands e)
  | index e key => congrArg₂ index (mapOperands_mapOperands e) (mapOperands_mapOperands key)
  | call function args => congrArg₂ call (mapOperands_mapOperands function) (mapAll_mapAll args)
  | method receiver key args =>
    congrArg₂ (method · key ·) (mapOperands_mapOperands receiver) (mapAll_mapAll args)
  | table items => congrArg table (mapAll_mapAll items)

theorem mapAll_mapAll : (es : List Expr) → mapAll h (mapAll g es) = mapAll (h ∘ g) es
  | [] => rfl
  | e :: rest => congrArg₂ List.cons (mapOperands_mapOperands e) (mapAll_mapAll rest)

end

mutual

theorem operands_mapOperands : (e : Expr) → (e.mapOperands g).operands = e.operands.map g
  | operand _ | name _ | number _ | string _ | bytes _ => rfl
  | paren e | negate e | field e _ => operands_mapOperands e
  | binary _ left right => by
    rw [mapOperands, operands, operands, operands_mapOperands left, operands_mapOperands right,
      List.map_append]
  | index e key => by
    rw [mapOperands, operands, operands, operands_mapOperands e, operands_mapOperands key,
      List.map_append]
  | call function args => by
    rw [mapOperands, operands, operands, operands_mapOperands function, allOperands_mapAll args,
      List.map_append]
  | method receiver _ args => by
    rw [mapOperands, operands, operands, operands_mapOperands receiver, allOperands_mapAll args,
      List.map_append]
  | table items => allOperands_mapAll items

theorem allOperands_mapAll : (es : List Expr) →
    allOperands (mapAll g es) = (allOperands es).map g
  | [] => rfl
  | e :: rest => by
    rw [mapAll, allOperands, allOperands, operands_mapOperands e, allOperands_mapAll rest,
      List.map_append]

end

end

/-- The slots that occur in an expression. -/
def slots (e : Expr) : List Nat := e.operands.flatMap Operand.slots

@[simp]
theorem slots_operand (o : Operand) : (operand o).slots = o.slots := List.append_nil _

/-- The slots that occur in expressions. -/
def allSlots (es : List Expr) : List Nat := (allOperands es).flatMap Operand.slots

/-- The slot that is assigned, if the expression is assigned to. -/
def target : Expr → Option Nat
  | operand (.slot n) => some n
  | _ => none

end Expr

namespace Stmt

/-- The slots that occur in a statement; a record has all slots below a number. -/
def slots : Stmt → List Nat
  | assign targets value => Expr.allSlots targets ++ value.slots
  | run e => e.slots
  | capture place slots _ => place.slots ++ List.range slots
  | goto _ => []
  | ret values => values.flatMap Operand.slots

/-- The slots that a statement reads. -/
def reads : Stmt → List Nat
  | assign targets value =>
    Expr.allSlots (targets.filter fun place => place.target.isNone) ++ value.slots
  | run e => e.slots
  | capture place slots _ => place.slots ++ List.range slots
  | goto _ => []
  | ret values => values.flatMap Operand.slots

/-- The slots that a statement assigns. -/
def assigns : Stmt → List Nat
  | assign targets _ => targets.filterMap Expr.target
  | _ => []

theorem assigns_slots (slots : List Nat) (e : Expr) :
    (assign (slots.map .slot) e).assigns = slots := by
  rw [assigns, List.filterMap_map]
  exact List.filterMap_some

end Stmt

def Line.slots : Line → List Nat
  | stmt s => s.slots
  | guard condition s | arm _ condition s => condition.slots ++ s.slots
  | choice condition s t => condition.slots ++ (s.slots ++ t.slots)
  | ifThen condition | elseIf condition => condition.slots
  | declare slots => slots
  | label _ | otherwise | forever | leave | close | comment _ => []

end Moonstack
