import Moonstack.Instr
import Moonstack.Options

/-!
# Lifetimes of locals

A walk over a body that finds, before any code is written, how long the value of each local is
needed and which locals have to be zeroed.

The walk counts as the writing of the code will: every instruction is one step, and so are the
`else` of an `if` and the close of a block.

* A value that is read in a loop but assigned outside it is needed until the loop closes, since the
  next round reads it again; the outermost such loop counts (`Survey.read`, `Survey.exit`).
* An assignment counts inside its own block only. A read that no assignment of an enclosing block
  precedes forces the local to be zeroed, in front of the top-level instruction that first mentions
  it (`Survey.force`).
-/

namespace Moonstack

/-! ## Lifetimes -/

/-- What is known about the locals of a body. -/
structure Lifetimes where
  /-- per local: counter value after which its value is not needed -/
  lastRefs : Array (Option Nat) := #[]
  /-- counter values with a local to zero in front of that instruction, in the order found -/
  forced : List (Nat × Nat) := []
  ticks : Nat := 0

namespace Lifetimes

/-- Counter value after which the value of a local is not needed. -/
def lastRef (l : Lifetimes) (index : Nat) : Option Nat := (l.lastRefs[index]?).join

/-- The locals to zero in front of the instruction at a counter value. -/
def forcedAt (l : Lifetimes) (tick : Nat) : List Nat :=
  (l.forced.filter fun p => p.1 == tick).map Prod.snd

/-- The counter values at which locals are zeroed, in rising order, with these locals. -/
def forcedGroups (l : Lifetimes) : List (Nat × List Nat) :=
  (ascending (l.forced.map Prod.fst)).map fun tick => (tick, l.forcedAt tick)

end Lifetimes

/-! ## The state of a walk -/

/-- A block that encloses the current instruction. -/
structure Scope where
  isLoop : Bool
  assigned : List Nat := []

/-- What a walk knows about one local. -/
structure LocalSurvey where
  /-- greatest counter value of a reference, loops taken into account -/
  lastRef : Option Nat := none
  /-- counter value of the top-level instruction that first mentions it -/
  firstTop : Option Nat := none
  /-- the loop whose close ends its lifetime, by number of enclosing scopes -/
  extendTo : Option Nat := none
  forced : Bool := false

/-- The state of a walk. -/
structure Survey where
  locals : Array LocalSurvey
  /-- enclosing blocks, the innermost first; the last is the whole body -/
  scopes : List Scope
  clock : Nat := 0
  topStart : Nat := 0
  forced : List (Nat × Nat) := []

/-- Records a reference at a counter value. -/
def LocalSurvey.reach (s : LocalSurvey) (tick : Nat) : LocalSurvey :=
  { s with lastRef := some (s.lastRef.elim tick (max tick)) }

/-- Depth of the innermost scope that assigned a local, counted from the outermost as zero. -/
def Scope.assignedDepth (index : Nat) : List Scope → Option Nat
  | [] => none
  | s :: outer => if s.assigned.contains index then some outer.length else assignedDepth index outer

/-- Depth of the outermost loop inside the scope of the given depth. -/
def Scope.loopInside (depth : Nat) : List Scope → Option Nat
  | [] => none
  | s :: outer =>
    if outer.length ≤ depth then none
    else (loopInside depth outer).or (if s.isLoop then some outer.length else none)

/-- Marks a local as assigned in the outermost scope. -/
def Scope.assignOutermost (index : Nat) : List Scope → List Scope
  | [] => []
  | [s] => [{ s with assigned := index :: s.assigned }]
  | s :: outer => s :: assignOutermost index outer

/-! ## Steps of a walk -/

namespace Survey

/-- The state before the first instruction; parameters are assigned. -/
def start (localCount paramCount : Nat) : Survey where
  locals := Array.replicate localCount {}
  scopes := [{ isLoop := false, assigned := List.range paramCount }]

/-- One counter step, into an instruction. -/
def advance (s : Survey) : Survey :=
  let clock := s.clock + 1
  { s with clock, topStart := if s.scopes.length = 1 then clock else s.topStart }

/-- Records a mention of a local. -/
def touch (s : Survey) (index : Nat) : Survey :=
  { s with
    locals := s.locals.modify index fun l =>
      { l.reach s.clock with firstTop := l.firstTop.or (some s.topStart) } }

/-- Zeroes a local in front of the top-level instruction that first mentions it. -/
def force (s : Survey) (index : Nat) : Survey :=
  let known := (s.locals[index]?).getD {}
  let entry := if known.forced then [] else [(known.firstTop.getD s.topStart, index)]
  { s with
    locals := s.locals.modify index fun l => { l with forced := true }
    forced := s.forced ++ entry
    scopes := Scope.assignOutermost index s.scopes }

/-- A read whose value was assigned in the scope of the given depth: the lifetime reaches to the
close of the outermost loop inside that scope. -/
def extend (s : Survey) (index depth : Nat) : Survey :=
  match Scope.loopInside depth s.scopes with
  | none => s
  | some loop =>
    { s with
      locals := s.locals.modify index fun l =>
        { l with extendTo := some (l.extendTo.elim loop (min loop)) } }

/-- Reads a local. -/
def read (s : Survey) (index : Nat) : Survey :=
  if index < s.locals.size then
    let s := s.touch index
    match Scope.assignedDepth index s.scopes with
    | some depth => s.extend index depth
    | none => (s.force index).extend index 0
  else s

/-- Assigns a local. -/
def write (s : Survey) (index : Nat) : Survey :=
  if index < s.locals.size then
    let s := s.touch index
    match s.scopes with
    | [] => s
    | inner :: outer =>
      { s with scopes := { inner with assigned := index :: inner.assigned } :: outer }
  else s

/-- Enters a block. -/
def enter (s : Survey) (isLoop : Bool) : Survey := { s with scopes := { isLoop } :: s.scopes }

/-- Goes over to the alternative of an `if`: one counter step, and what the first arm assigned does
not count. -/
def alternative (s : Survey) : Survey :=
  match s.scopes with
  | [] => { s with clock := s.clock + 1 }
  | inner :: outer =>
    { s with clock := s.clock + 1, scopes := { inner with assigned := [] } :: outer }

/-- Leaves a block: one counter step, and the close of a loop ends the lifetimes that reach to it.
-/
def exit (s : Survey) : Survey :=
  let clock := s.clock + 1
  match s.scopes with
  | [] => { s with clock }
  | inner :: outer =>
    let close := fun l : LocalSurvey =>
      if l.extendTo = some outer.length then { l.reach clock with extendTo := none } else l
    { s with
      clock, scopes := outer
      locals := if inner.isLoop then s.locals.map close else s.locals }

/-! ## The walk -/

mutual

/-- Walks over an instruction. -/
def instr (s : Survey) : Instr → Survey
  | .leaf _ (.localGet index) => s.advance.read index
  | .leaf _ (.localSet index) | .leaf _ (.localTee index) => s.advance.write index
  | .leaf _ _ => s.advance
  | .block _ _ inner | .ifThen _ _ inner => ((s.advance.enter false).body inner).exit
  | .loop _ _ inner => ((s.advance.enter true).body inner).exit
  | .ifElse _ _ inner other =>
    (((s.advance.enter false).body inner).alternative.body other).exit

/-- Walks over the instructions of a body. -/
def body (s : Survey) : List Instr → Survey
  | [] => s
  | i :: rest => (s.instr i).body rest

end

end Survey

/-- The lifetimes of a body with the given numbers of locals and, among them, parameters. -/
def Lifetimes.ofBody (code : List Instr) (localCount paramCount : Nat) : Lifetimes :=
  let s := (Survey.start localCount paramCount).body code
  { lastRefs := s.locals.map LocalSurvey.lastRef, forced := s.forced, ticks := s.clock }

end Moonstack
