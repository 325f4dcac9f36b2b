import Moonstack.Command.Run

/-!
The command line.
-/

namespace Moonstack

/-- Why a file operation of the system failed. -/
def fileError : IO.Error → FileError
  | .noFileOrDirectory _ _ _ => .missing
  | .permissionDenied _ _ _ => .denied
  | .inappropriateType _ code _ => if code = 20 then .notDirectory else .isDirectory
  | _ => .failed

/-- The files of the system. -/
def systemFiles : Files IO where
  read path := do
    try return .ok (← IO.FS.readBinFile path).toList
    catch e => return .error (fileError e)
  write path text := do
    try
      IO.FS.writeFile path text
      return .ok ()
    catch e => return .error (fileError e)

end Moonstack

/-- Runs the command. -/
def main (args : List String) : IO UInt32 := do
  let report ← Moonstack.Command.run Moonstack.systemFiles args
  IO.eprint report.messages
  IO.print report.output
  return UInt32.ofNat report.exitCode
