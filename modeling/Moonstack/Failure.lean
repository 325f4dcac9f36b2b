/-!
# Failures

Why a module could not be read or a chunk could not be written.
-/

namespace Moonstack

/-! ## Causes -/

/-- Why one function is refused. The chunk then holds a stub for it. -/
inductive Rejection where
  | tooLong (count limit : Nat)
  | wideBranchTable (count limit : Nat)
deriving DecidableEq

/-- Why, in words. -/
def Rejection.reason : Rejection → String
  | tooLong count limit => s!"{count} instructions exceeds the limit of {limit}"
  | wideBranchTable count limit => s!"br_table with {count} targets exceeds the limit of {limit}"

/-- What is said about a function that is refused. -/
def Rejection.message (r : Rejection) : String := s!"function rejected: {r.reason}"

/-- A register that cannot be given back. -/
inductive RegisterError where
  | unknown (id : Nat)
  /-- the register, which held this slot, was given back before -/
  | freedTwice (slot : Nat)
deriving DecidableEq

/-- What is wrong, in words. -/
def RegisterError.message : RegisterError → String
  | unknown id => s!"free of unknown register RegisterId({id})"
  | freedTwice slot => s!"register reg{slot} freed twice"

/-- What went wrong. -/
inductive Cause where
  | malformed
  | component
  | valueType (name : String)
  | multiValueBlock
  | strayElse (offset : Nat)
  | unterminated (count : Nat)
  | undeclaredBody (index : Nat)
  | elementExpression (description : String)
  | flag (name : String)
  | signature (function : String) (type : Nat)
  | unregistered (index : Nat)
  | rejected (r : Rejection)
  | register (e : RegisterError)
  | noOpenBlock (id : String)
  | depth (id : String) (found : Nat) (label : String) (expected : Nat)
deriving DecidableEq

/-- The cause in words. Undecodable bytes have none: the steps around the failure say where they
are. -/
def Cause.message? : Cause → Option String
  | malformed => none
  | component => some "only core WebAssembly modules are supported"
  | valueType name => some s!"unsupported value type {name}"
  | multiValueBlock => some "Multi-value blocks not supported"
  | strayElse offset => some s!"`else` outside of `if` at offset {offset}"
  | unterminated count => some s!"{count} unterminated block(s)"
  | undeclaredBody index => some s!"code entry {index} has no function declaration"
  | elementExpression description => some s!"unsupported element expression {description}"
  | flag name => some s!"unknown compile flag: {name}"
  | signature function type => some s!"function {function} uses unknown type {type}"
  | unregistered index => some s!"function {index} was not registered"
  | rejected r => some r.message
  | register e => some e.message
  | noOpenBlock id => some s!"{id}: block close without an open block"
  | depth id found label expected =>
    some s!"{id}: stack depth {found} after {label} (expected {expected})"

/-! ## Contexts -/

/-- What was being done when something went wrong. -/
inductive Context where
  | module
  | payload
  | item (kind : String)
  | body (index : Nat)
  | localGroups
  | localGroup
  | operator
  | constantExpression
  | chunk
  | function (name : String)
  | initializer (id : String)
  | command
deriving DecidableEq

/-- The step in words. -/
def Context.message : Context → String
  | module => "failed to parse WebAssembly module"
  | payload => "parsing wasm payload"
  | item kind => s!"reading {kind}"
  | body index => s!"parsing body of function {index}"
  | localGroups => "getting locals reader"
  | localGroup => "reading local"
  | operator => "reading operator"
  | constantExpression => "reading constant expression"
  | chunk => "failed to generate Lua code"
  | function name => s!"failed to translate function {name}"
  | initializer id => s!"failed to translate {id} expression"
  | command => "translation failed"

/-! ## Failures -/

/-- A cause with the steps that were under way, the outermost first. -/
structure Failure where
  context : List Context := []
  cause : Cause
deriving DecidableEq

namespace Failure

/-- A failure outside of all steps. -/
def of (cause : Cause) : Failure := { cause }

/-- Puts a failure into one more step. -/
def within (c : Context) (f : Failure) : Failure := { f with context := c :: f.context }

/-- The whole chain: the steps that were under way, and the cause. -/
def message (f : Failure) : String :=
  ": ".intercalate (f.context.map Context.message ++ f.cause.message?.toList)

end Failure

/-- Runs a step, putting its failure into context. -/
def within {α : Type} (c : Context) : Except Failure α → Except Failure α :=
  Except.mapError (Failure.within c)

end Moonstack
