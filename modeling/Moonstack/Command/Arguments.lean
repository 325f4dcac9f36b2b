import Moonstack.Options

/-!
# Arguments

The arguments of the command, from the words of a command line.

* A long option is `--name value` or `--name=value`, a short one `-o value`, `-ovalue` or
  `-o=value`. Short options may be written together, such as `-vo value`.
* A value in a word of its own does not begin with a dash, unless it is a single dash. After `--`
  there are no options any more.
* `-h`, `--help`, `-V` and `--version` ask for a text instead of a run. They count as soon as they
  are read, so of a fault and such a question the first in the line decides.
* `Arguments.parse` refuses anything else: an unknown option, a missing or bad value, an option
  given twice that takes one value, and any number of inputs but one.
-/

namespace Moonstack

/-- What the command is asked to do. -/
structure Arguments where
  input : String
  output : Option String
  options : Options
  verbose : Bool

/-- Why there is nothing to run. -/
inductive Stop where
  | misuse
  | help (full : Bool)
  | version
deriving DecidableEq

/-- A value that is there if the words can be understood. -/
def Stop.orMisuse {α : Type} : Option α → Except Stop α
  | some a => .ok a
  | none => .error .misuse

/-! ## Settings -/

/-- An option with a value. -/
inductive Setting where
  | output
  | whitelist
  | compileFlags
  | bisectAbove
  | strategy
  | branchTableLimit
  | functionLimit
deriving DecidableEq

/-- The option of a long name. -/
def Setting.ofName? : String → Option Setting
  | "output" => some .output
  | "whitelist" => some .whitelist
  | "compile-flags" => some .compileFlags
  | "jmp-stream-threshold" => some .bisectAbove
  | "register-strategy" => some .strategy
  | "br-table-limit" => some .branchTableLimit
  | "max-function-instructions" => some .functionLimit
  | _ => none

/-! ## Drafts -/

/-- Arguments of which some have been read. -/
structure Draft where
  input : Option String := none
  output : Option String := none
  whitelist : Option (List String) := none
  flags : List Flag := []
  bisectAbove : Option Nat := none
  strategy : Option Strategy := none
  branchTableLimit : Option Nat := none
  functionLimit : Option Nat := none
  verbose : Bool := false

namespace Draft

/-- A value for something that has none yet. -/
def once {α : Type} (old new : Option α) : Option (Option α) :=
  if old.isSome then none else new.map some

/-- The name of a file, which is not empty. -/
def path (value : String) : Option String := if value.isEmpty then none else some value

/-- What a number stays below. -/
def numberLimit : Nat := 1 <<< 64

/-- A number: digits, perhaps after a plus sign. -/
def number (value : String) : Option Nat :=
  let digits := match value.toList with
    | '+' :: rest => rest
    | all => all
  if digits.isEmpty || !digits.all Char.isDigit then none
  else
    let n := digits.foldl (fun n c => 10 * n + (c.toNat - 48)) 0
    if n < numberLimit then some n else none

/-- The strategy of a name. -/
def strategyOf : String → Option Strategy
  | "virtual" => some .virtual
  | "pooled" => some .pooled
  | _ => none

/-- The parts of a list, which commas separate. -/
def pieces (value : String) : List String := value.splitOn ","

/-- Sets an option, if it may be set and the value is one of its values. -/
def set? (d : Draft) (setting : Setting) (value : String) : Option Draft := do
  match setting with
  | .output => return { d with output := ← once d.output (path value) }
  | .whitelist => return { d with whitelist := some (d.whitelist.getD [] ++ pieces value) }
  | .compileFlags => return { d with flags := d.flags ++ (← (pieces value).mapM Flag.ofName?) }
  | .bisectAbove => return { d with bisectAbove := ← once d.bisectAbove (number value) }
  | .strategy => return { d with strategy := ← once d.strategy (strategyOf value) }
  | .branchTableLimit =>
    return { d with branchTableLimit := ← once d.branchTableLimit (number value) }
  | .functionLimit => return { d with functionLimit := ← once d.functionLimit (number value) }

/-- Sets an option. -/
def set (d : Draft) (setting : Setting) (value : String) : Except Stop Draft :=
  Stop.orMisuse (d.set? setting value)

/-- Asks for debug records, which may be done once. -/
def setVerbose (d : Draft) : Except Stop Draft :=
  if d.verbose then .error .misuse else .ok { d with verbose := true }

/-- Sets the input, which may be done once. -/
def setInput (d : Draft) (value : String) : Except Stop Draft := do
  return { d with input := ← Stop.orMisuse (once d.input (path value)) }

/-! ## Words -/

/-- Reads short options that are written together. Gives the option that still needs a value. -/
def shortOptions (d : Draft) : List Char → Except Stop (Draft × Option Setting)
  | [] => .ok (d, none)
  | 'h' :: _ => .error (.help false)
  | 'V' :: _ => .error .version
  | 'v' :: rest => do shortOptions (← d.setVerbose) rest
  | ['o'] => .ok (d, some .output)
  | 'o' :: '=' :: value => do return (← d.set .output (String.ofList value), none)
  | 'o' :: value => do return (← d.set .output (String.ofList value), none)
  | _ => .error .misuse

/-- Reads a long option without a value in the same word. -/
def bareOption (d : Draft) : String → Except Stop (Draft × Option Setting)
  | "help" => .error (.help true)
  | "version" => .error .version
  | "verbose" => do return (← d.setVerbose, none)
  | name => do return (d, some (← Stop.orMisuse (Setting.ofName? name)))

/-- Reads a long option, of which the dashes are left out. -/
def longOption (d : Draft) (word : List Char) : Except Stop (Draft × Option Setting) := do
  let name := String.ofList (word.takeWhile (· != '='))
  match word.dropWhile (· != '=') with
  | [] => d.bareOption name
  | _ :: value =>
    let setting ← Stop.orMisuse (Setting.ofName? name)
    return (← d.set setting (String.ofList value), none)

/-- Reads a word. Gives the option that still needs a value. -/
def word (d : Draft) (w : String) : Except Stop (Draft × Option Setting) :=
  match w.toList with
  | '-' :: '-' :: rest => d.longOption rest
  | '-' :: c :: rest => d.shortOptions (c :: rest)
  | _ => do return (← d.setInput w, none)

/-- Can a word be the value of an option in front of it? -/
def isValue (w : String) : Bool := w == "-" || !w.startsWith "-"

/-- Reads the words of a command line. -/
def words : Draft → List String → Except Stop Draft
  | d, [] => .ok d
  | d, "--" :: rest => rest.foldlM setInput d
  | d, w :: rest => do
    match ← d.word w with
    | (d, none) => words d rest
    | (d, some setting) =>
      match rest with
      | [] => .error .misuse
      | value :: rest =>
        if isValue value then words (← d.set setting value) rest else .error .misuse

/-! ## From a draft to arguments -/

/-- The options that a draft comes to. What is not set has its default. -/
def options (d : Draft) : Options :=
  let base : Options := {
    whitelist := d.whitelist.map ascending
    bisectAbove := d.bisectAbove }
  let base := { base with
    strategy := d.strategy.getD base.strategy
    branchTableLimit := d.branchTableLimit.getD base.branchTableLimit
    functionLimit := d.functionLimit.getD base.functionLimit }
  d.flags.foldl Options.enable base

/-- The arguments of a draft, which needs an input. -/
def arguments (d : Draft) : Except Stop Arguments := do
  let input ← Stop.orMisuse d.input
  return { input, output := d.output, options := d.options, verbose := d.verbose }

end Draft

/-- The arguments that words give, if they can be understood. -/
def Arguments.parse (words : List String) : Except Stop Arguments := do
  (← Draft.words {} words).arguments

end Moonstack
