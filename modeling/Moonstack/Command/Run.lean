import Moonstack.Command.Arguments
import Moonstack.Command.Help
import Moonstack.Chunk.Assembly
import Moonstack.Text.Plain

/-!
# The command

Reads a binary from a file and writes its program to a file or to standard output. Files are reached
through two operations that are given from outside, so the command can be run on any kind of
storage.
-/

namespace Moonstack

/-! ## Files and reports -/

/-- Why a file could not be read or written. -/
inductive FileError where
  | missing
  | failed
  | denied
  | notDirectory
  | isDirectory
  | nameTooLong
deriving DecidableEq

/-- The error in words, with the number that the system has for it. -/
def FileError.text : FileError → String
  | missing => "No such file or directory (os error 2)"
  | failed => "Input/output error (os error 5)"
  | denied => "Permission denied (os error 13)"
  | notDirectory => "Not a directory (os error 20)"
  | isDirectory => "Is a directory (os error 21)"
  | nameTooLong => "File name too long (os error 36)"

/-- How files are reached. -/
structure Files (m : Type → Type) where
  read : String → m (Except FileError (List UInt8))
  write : String → String → m (Except FileError Unit)

/-- What a run of the command leaves. -/
structure Report where
  exitCode : Nat
  output : String := ""
  messages : String := ""

/-- The sign in front of a log record. -/
def Level.sign : Level → String
  | error => "[E] "
  | warn => "[W] "
  | info => "[*] "
  | debug => "[D] "

/-- A log record as shown. A line break in it begins a marked line. A control sequence that the
record leaves open takes the end of the line with it. -/
def Record.shown (r : Record) : String :=
  plain (r.level.sign ++ "\n |  ".intercalate (r.message.splitOn "\n") ++ "\n")

/-! ## The command -/

namespace Command

/-- A line of the command's own. -/
def say (text : String) : String := s!"wasm2lua: {text}\n"

/-- The records to show: those for debugging only if they are asked for. -/
def shownRecords (verbose : Bool) (log : Log) : String :=
  String.join ((log.toList.filter fun r => verbose || r.level != .debug).map Record.shown)

/-- Writes a program where the arguments say. -/
def deliver {m : Type → Type} [Monad m] (files : Files m) (arguments : Arguments) (program : String)
    (messages : String) : m Report := do
  match arguments.output with
  | none => return { exitCode := 0, output := program, messages }
  | some path =>
    match ← files.write path program with
    | .ok () => return { exitCode := 0, messages := messages ++ say s!"wrote {path}" }
    | .error e =>
      return { exitCode := 1, messages := messages ++ say s!"failed to write {path}: {e.text}" }

/-- Runs the command on arguments that have been understood. -/
def runOn {m : Type → Type} [Monad m] (files : Files m) (arguments : Arguments) : m Report := do
  let start := say s!"translating {arguments.input}"
  match ← files.read arguments.input with
  | .error e =>
    let refusal := say s!"failed to read {arguments.input}: {e.text}"
    return { exitCode := 1, messages := start ++ refusal }
  | .ok bytes =>
    let (result, log) := (Logged.within .command (programOfBinary arguments.options bytes)).outcome
    let messages := start ++ shownRecords arguments.verbose log
    match result with
    | .ok program => deliver files arguments program messages
    | .error failure => return { exitCode := 1, messages := messages ++ say failure.message }

/-- What is left if there is nothing to run. -/
def answer : Stop → Report
  | .misuse =>
    { exitCode := 2, messages := Help.usage ++ "\n\nFor more information, try '--help'.\n" }
  | .help full => { exitCode := 0, output := Help.text full }
  | .version => { exitCode := 0, output := Help.version }

/-- Runs the command on the words of a command line. -/
def run {m : Type → Type} [Monad m] (files : Files m) (words : List String) : m Report := do
  match Arguments.parse words with
  | .error stop => return answer stop
  | .ok arguments => runOn files arguments

end Command

end Moonstack
