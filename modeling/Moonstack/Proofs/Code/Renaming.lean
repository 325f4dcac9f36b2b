import Moonstack.Function.Frame
import Moonstack.Proofs.Code.Substitution

/-!
# Renaming slots

Code with the slots in it replaced by others. A line of code has a tree, so its slots are where the
tree has them (`Line.rename`). A debug comment is a text; `Remark` is what it is the text of, and
`Line.Renamed` compares two lines of either kind.

A renaming is a substitution of slots for slots.
-/

namespace Moonstack

/-- An operand with its slot renamed. -/
def Operand.rename (ρ : Nat → Nat) : Operand → Operand := subst fun n => .slot (ρ n)

/-- An expression with its slots renamed. -/
def Expr.rename (ρ : Nat → Nat) : Expr → Expr := subst fun n => .slot (ρ n)

/-- A statement with its slots renamed. A record of all slots below a number has no slots of its own,
so it stays as it is. -/
def Stmt.rename (ρ : Nat → Nat) : Stmt → Stmt := subst fun n => .slot (ρ n)

/-- A line with its slots renamed. -/
def Line.rename (ρ : Nat → Nat) : Line → Line := subst fun n => .slot (ρ n)

/-- A debug comment on registers or on the operand stack. -/
inductive Remark where
  | alloc (slot : Nat)
  | bind (index slot : Nat)
  | free (slot : Nat) (boundTo firstRef lastRef : Option Nat)
  | push (o : Operand)
  | pop (o : Operand)

namespace Remark

/-- A debug comment as text. -/
def text : Remark → String
  | alloc slot => s!"alloc {slotName slot}"
  | bind index slot => s!"bind local {index} to {slotName slot}"
  | free slot boundTo firstRef lastRef =>
    match boundTo, firstRef with
    | some index, some first =>
      let last := lastRef.elim "end" toString
      s!"free {slotName slot} (local {index}, live {first}..{last})"
    | _, _ => s!"free {slotName slot}"
  | push o => s!"push {o.text}"
  | pop o => s!"pop {o.text}"

/-- A debug comment with its slot renamed. -/
def rename (ρ : Nat → Nat) : Remark → Remark
  | alloc slot => alloc (ρ slot)
  | bind index slot => bind index (ρ slot)
  | free slot boundTo firstRef lastRef => free (ρ slot) boundTo firstRef lastRef
  | push o => push (o.rename ρ)
  | pop o => pop (o.rename ρ)

end Remark

/-- The first text is the debug comment that the second is, with its slot renamed. -/
def Remark.Renamed (ρ : Nat → Nat) (s t : String) : Prop :=
  ∃ m : Remark, s = (m.rename ρ).text ∧ t = m.text

/-- The first line is the second with its slots renamed. -/
inductive Line.Renamed (ρ : Nat → Nat) : Line → Line → Prop
  | code (l : Line) : Renamed ρ (l.rename ρ) l
  | remark {s t : String} (h : Remark.Renamed ρ s t) : Renamed ρ (.comment s) (.comment t)

/-- The first line is the second with its slots renamed, at the same indentation. -/
structure Placed.Renamed (ρ : Nat → Nat) (p q : Placed) : Prop where
  indent : p.indent = q.indent
  line : Line.Renamed ρ p.line q.line

theorem ValueType.rename_zero (ρ : Nat → Nat) (t : ValueType) : t.zero.rename ρ = t.zero :=
  t.subst_zero _

end Moonstack
