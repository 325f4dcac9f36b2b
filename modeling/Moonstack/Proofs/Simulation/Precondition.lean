import Moonstack.Proofs.Simulation.Domain

/-!
# Preconditions of bodies

What has to hold in front of an instruction so that all its runs go well, in a given domain. A run
knows the values that the innermost block has pushed, the top first, and the values of the locals.

`Post` says what has to hold where control leaves an instruction: behind it, at the label of a
branch, and at a return. All of it depends on the number of jumps back that are left. A loop takes an
invariant, which has to hold again at every jump back, with one jump less.
-/

namespace Moonstack

/-- What has to hold where control leaves an instruction. The first number is that of the jumps back
that are left. -/
structure Post (V : Type) where
  next : Nat → List V → (Nat → V) → Prop
  br : Nat → Nat → List V → (Nat → V) → Prop
  ret : List V → Prop

namespace Post

variable {V : Type}

/-- What has to hold at a jump back, if `I` is to hold with one jump less. -/
def Before (unbounded : Prop) (I : Nat → Prop) : Nat → Prop
  | 0 => unbounded
  | m + 1 => I m

/-- What has to hold where control leaves the body of a block that yields `arity` values on top of
`vals`. -/
def block (post : Post V) (arity : Nat) (vals : List V) : Post V where
  next m vs ls := vs.length = arity ∧ post.next m (vs ++ vals) ls
  br
    | 0 => fun m vs ls => arity ≤ vs.length ∧ post.next m (vs.take arity ++ vals) ls
    | depth + 1 => post.br depth
  ret := post.ret

/-- What has to hold where control leaves the body of a loop with the given invariant. -/
def loop (post : Post V) (arity : Nat) (vals : List V) (unbounded : Prop)
    (I : Nat → (Nat → V) → Prop) : Post V where
  next m vs ls := vs.length = arity ∧ post.next m (vs ++ vals) ls
  br
    | 0 => fun m _ ls => Before unbounded (I · ls) m
    | depth + 1 => post.br depth
  ret := post.ret

end Post

namespace Domain

variable (D : Domain) (env : Env)

/-- The precondition of an instruction without a body. -/
def opPre (post : Post D.Value) (m : Nat) (vals : List D.Value) (ls : Nat → D.Value) : Op → Prop
  | .br depth => post.br depth m vals ls
  | .brIf depth => ∃ v rest, vals = v :: rest ∧ D.Testable v ∧
    ∀ b, D.Holds v b → if b then post.br depth m rest ls else post.next m rest ls
  | .brTable targets fallback => ∃ v rest, vals = v :: rest ∧ D.Testable v ∧
    ∀ i, D.Selects v targets.length i → post.br ((targets[i]?).getD fallback) m rest ls
  | .ret => post.ret vals
  | .localGet l => post.next m (ls l :: vals) ls
  | .localSet l => ∃ v rest, vals = v :: rest ∧ post.next m rest (Function.update ls l v)
  | .localTee l => ∃ v rest, vals = v :: rest ∧ post.next m (v :: rest) (Function.update ls l v)
  | .const c => ∃ v, D.const c = some v ∧ post.next m (v :: vals) ls
  | .unreachable => D.Unbounded
  | o => ∃ p args rest results, o.plain env = some p ∧ D.Performs o args results ∧
    args.length = p.pops ∧ results.length = p.pushes ∧ vals = args.reverse ++ rest ∧
    post.next m (results.reverse ++ rest) ls

mutual

/-- The precondition of an instruction. -/
def pre : Instr → Post D.Value → Nat → List D.Value → (Nat → D.Value) → Prop
  | .leaf _ o, post, m, vals, ls => D.opPre env post m vals ls o
  | .block _ result body, post, m, vals, ls =>
    bodyPre body (post.block result.toList.length vals) m [] ls
  | .loop _ result body, post, m, vals, ls => ∃ I : Nat → (Nat → D.Value) → Prop, I m ls ∧
    ∀ m ls, I m ls → bodyPre body (post.loop result.toList.length vals D.Unbounded I) m [] ls
  | .ifThen _ result body, post, m, vals, ls => result = none ∧ ∃ v rest, vals = v :: rest ∧
    D.Testable v ∧ ∀ b, D.Holds v b →
      if b then bodyPre body (post.block 0 rest) m [] ls else post.next m rest ls
  | .ifElse _ result body other, post, m, vals, ls => ∃ v rest, vals = v :: rest ∧
    D.Testable v ∧ ∀ b, D.Holds v b →
      if b then bodyPre body (post.block result.toList.length rest) m [] ls
      else bodyPre other (post.block result.toList.length rest) m [] ls

def bodyPre : List Instr → Post D.Value → Nat → List D.Value → (Nat → D.Value) → Prop
  | [], post, m, vals, ls => post.next m vals ls
  | i :: rest, post, m, vals, ls =>
    pre i { post with next := fun m vals ls => bodyPre rest post m vals ls } m vals ls

end

end Domain

end Moonstack
