import Moonstack.Chunk.Declaration

/-!
# Definitions of functions

The functions of a module as definitions. With a whitelist, a function that it does not name is
pruned: a stub that prints takes its place. A function that is refused becomes a stub that raises an
error. Both stubs have the parameters of the function.
-/

namespace Moonstack

/-! ## Which functions are written -/

/-- How many functions were written, refused and pruned. -/
structure Tally where
  written : Nat := 0
  rejected : Nat := 0
  pruned : Nat := 0

/-- What is logged about the functions of a module. -/
def Tally.message (t : Tally) : String :=
  s!"translated {t.written} functions ({t.rejected} rejected, {t.pruned} pruned)"

/-- Does the whitelist leave a function out? It keeps those it names by name or by export. -/
def isPruned (m : Module) (whitelist : Option (List String)) (index : Nat)
    (entry : FunctionEntry) : Bool :=
  match whitelist with
  | none => false
  | some names =>
    !names.contains entry.name &&
      !m.exports.any fun e => e.kind = .function ∧ e.index = index ∧ names.contains e.name

/-! ## Stubs and definitions -/

namespace FunctionEntry

/-- As many parameters as the function has, named like its slots. -/
def stubParams (entry : FunctionEntry) : List String :=
  (List.range (entry.signature.elim 0 fun s => s.params.length)).map slotName

/-- A definition that runs one statement, whatever the arguments are. -/
def stub (entry : FunctionEntry) (statement : String) : Item :=
  .define { name := entry.id, params := entry.stubParams, body := .stub statement }

/-- What stands for a function that is left out. -/
def prunedStub (entry : FunctionEntry) : Item :=
  entry.stub (Expr.call (.name "print") [.string s!"!!! PRUNED: {entry.id}"]).text

/-- What stands for a function that is refused: it raises the reason. -/
def rejectedStub (entry : FunctionEntry) (r : Rejection) : Item :=
  entry.stub (Stmt.run (.error s!"FUNCTION REJECTED: {r.reason}")).text

/-- What defines a function. One with long jumps is a body that can be resumed, and a trampoline
that runs it. -/
def definitions (entry : FunctionEntry) (f : Lowered) : List Item :=
  if f.usesSetjmp then
    let inner := resumableName entry.id
    [.define { name := inner, params := jumpRecord :: jumpFrame :: f.params, body := .code f },
      .define { name := entry.id, params := f.params, body := .trampoline inner f.resultCount }]
  else [.define { name := entry.id, params := f.params, body := .code f }]

end FunctionEntry

/-! ## The functions of a module -/

/-- Writes a function that is not left out, or its stub if it is refused. -/
def keptFunction (env : Env) (entry : FunctionEntry) (f : Function) (tally : Tally) :
    Logged (List Item × Tally) := do
  match ← Logged.attempt (lowerFunction env entry.id entry.name f) with
  | .ok lowered => return (entry.definitions lowered, { tally with written := tally.written + 1 })
  | .error failure =>
    match failure.cause with
    | .rejected r =>
      Logged.record .error s!"{entry.name}: {r.message}"
      return ([entry.rejectedStub r], { tally with rejected := tally.rejected + 1 })
    | _ => throw (failure.within (.function entry.name))

/-- What becomes of the function of an index. -/
def functionItems (env : Env) (m : Module) (index : Nat) (f : Function) (tally : Tally) :
    Logged (List Item × Tally) := do
  match env.registry.function? index with
  | none => throw (.of (.unregistered index))
  | some entry =>
    if isPruned m env.options.whitelist index entry then
      return ([entry.prunedStub], { tally with pruned := tally.pruned + 1 })
    else keptFunction env entry f tally

/-- What becomes of functions with consecutive indices. -/
def functionsItems (env : Env) (m : Module) (index : Nat) (tally : Tally) :
    List Function → Logged (List Item × Tally)
  | [] => return ([], tally)
  | f :: rest => do
    let (items, tally) ← functionItems env m index f tally
    let (more, tally) ← functionsItems env m (index + 1) tally rest
    return (items ++ more, tally)

/-- Writes the functions of a module and logs how many there are. -/
def moduleFunctions (env : Env) (m : Module) : Logged (List Item) := do
  let (items, tally) ← functionsItems env m env.registry.importedCount {} m.functions
  Logged.record .info tally.message
  return items

end Moonstack
