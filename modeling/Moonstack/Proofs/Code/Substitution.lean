import Moonstack.Proofs.Code.Slots

/-!
# Substitution of operands

Code with operands put in the place of its slots. Operations are lowered the same way whatever their
operands are, which the lemmas `subst_lower` say.
-/

namespace Moonstack

def Operand.subst (θ : Nat → Operand) : Operand → Operand
  | slot n => θ n
  | o => o

namespace Expr

/-- An expression with operands in the place of slots. -/
def subst (θ : Nat → Operand) (e : Expr) : Expr := e.mapOperands (Operand.subst θ)

/-- Expressions with operands in the place of slots. -/
def substAll (θ : Nat → Operand) (es : List Expr) : List Expr := mapAll (Operand.subst θ) es

theorem substAll_eq (θ : Nat → Operand) (es : List Expr) : substAll θ es = es.map (subst θ) :=
  mapAll_eq _ es

theorem substAll_cons (θ : Nat → Operand) (e : Expr) (rest : List Expr) :
    substAll θ (e :: rest) = e.subst θ :: substAll θ rest := rfl

end Expr

/-- A statement with operands in the place of slots. -/
def Stmt.subst (θ : Nat → Operand) : Stmt → Stmt
  | assign targets value => assign (Expr.substAll θ targets) (value.subst θ)
  | run e => run (e.subst θ)
  | capture place slots target => capture (place.subst θ) slots target
  | goto target => goto target
  | ret values => ret (values.map (Operand.subst θ))

/-- A line with operands in the place of slots. -/
def Line.subst (θ : Nat → Operand) : Line → Line
  | stmt s => stmt (s.subst θ)
  | guard condition s => guard (condition.subst θ) (s.subst θ)
  | choice condition s t => choice (condition.subst θ) (s.subst θ) (t.subst θ)
  | ifThen condition => ifThen (condition.subst θ)
  | elseIf condition => elseIf (condition.subst θ)
  | arm first condition s => arm first (condition.subst θ) (s.subst θ)
  | declare slots => declare (slots.flatMap fun n => (θ n).slots)
  | l => l

section

variable (θ : Nat → Operand)

theorem ValueType.subst_zero (t : ValueType) : t.zero.subst θ = t.zero := by
  cases t <;> rfl

theorem BinaryOp.subst_lower (op : BinaryOp) (exact : Bool) (type : ValueType) (l r : Expr) :
    op.lower exact type (l.subst θ) (r.subst θ) = (op.lower exact type l r).map (Expr.subst θ) := by
  cases type <;> cases op <;> cases exact <;> rfl

theorem Comparison.subst_lower (op : Comparison) (type : ValueType) (l r : Expr) :
    op.lower type (l.subst θ) (r.subst θ) = (op.lower type l r).map (Expr.subst θ) := by
  cases type <;> cases op <;> rfl

theorem subst_lowerEqz (type : ValueType) (x : Expr) :
    lowerEqz type (x.subst θ) = (lowerEqz type x).map (Expr.subst θ) := by
  cases type <;> rfl

theorem UnaryOp.subst_lower (op : UnaryOp) (type : ValueType) (x : Expr) :
    op.lower type (x.subst θ) = (op.lower type x).map (Expr.subst θ) := by
  cases type <;> cases op <;> rfl

theorem Conversion.subst_lower (op : Conversion) (x : Expr) :
    op.lower (x.subst θ) = (op.lower x).map (Expr.subst θ) := by
  cases op with
  | truncS target source | truncU target source => cases target <;> rfl
  | convertS target source | convertU target source => cases source <;> rfl
  | reinterpret target => cases target <;> rfl
  | _ => rfl

theorem subst_addressOf (base : Expr) (offset : Nat) :
    addressOf (base.subst θ) offset = (addressOf base offset).subst θ := by
  unfold addressOf
  split <;> rfl

theorem subst_lowerLoad (dest : Expr) (type : ValueType) (width : Width) (signed : Bool)
    (memory address : Expr) :
    lowerLoad (dest.subst θ) type width signed (memory.subst θ) (address.subst θ) =
      (lowerLoad dest type width signed memory address).map (List.map (Stmt.subst θ)) := by
  cases type <;> cases width <;> cases signed <;> rfl

theorem subst_lowerStore (type : ValueType) (width : Width) (memory address value : Expr) :
    lowerStore type width (memory.subst θ) (address.subst θ) (value.subst θ) =
      (lowerStore type width memory address value).map (Stmt.subst θ) := by
  cases type <;> cases width <;> rfl

end

end Moonstack
