import Moonstack.Failure

/-!
# Log

Records of what was noticed on the way. A `Logged` computation may fail, and keeps its records also
when it does.
-/

namespace Moonstack

/-- How grave a record is. -/
inductive Level where
  | error | warn | info | debug
deriving DecidableEq

/-- The name of a level. -/
def Level.name : Level → String
  | error => "ERROR"
  | warn => "WARN"
  | info => "INFO"
  | debug => "DEBUG"

/-- A message with its level. -/
structure Record where
  level : Level
  message : String
deriving DecidableEq

/-- The records of a run, the oldest first. -/
abbrev Log := Array Record

/-- A computation that may fail and that keeps a log either way. -/
abbrev Logged := EStateM Failure Log

namespace Logged

/-- Adds a record to the log. -/
def record (level : Level) (message : String) : Logged Unit :=
  modify fun log => log.push { level, message }

/-- A step that logs nothing. -/
def ofExcept {α : Type} : Except Failure α → Logged α
  | .ok a => pure a
  | .error f => throw f

/-- Runs a step, putting its failure into context. -/
def within {α : Type} (c : Context) (x : Logged α) : Logged α := fun log =>
  match x log with
  | .ok a log => .ok a log
  | .error f log => .error (f.within c) log

/-- Runs a step and gives its failure as a value. -/
def attempt {α : Type} (x : Logged α) : Logged (Except Failure α) := fun log =>
  match x log with
  | .ok a log => .ok (.ok a) log
  | .error f log => .ok (.error f) log

/-- The result and the log of a computation that starts with an empty log. -/
def outcome {α : Type} (x : Logged α) : Except Failure α × Log :=
  match x.run #[] with
  | .ok a log => (.ok a, log)
  | .error f log => (.error f, log)

end Logged

end Moonstack
