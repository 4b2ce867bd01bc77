import SpeculativeEvm.Command
import SpeculativeEvm.Command.FileTree

/-!
The command line: files from the file system, the report on standard output and failures on
standard error.
-/

namespace SpeculativeEvm

/-- The system's description of a failed read. -/
def describe : IO.Error → String
  | .noFileOrDirectory .. => Command.ReadFailure.notFound.message
  | .inappropriateType _ code details
  | .invalidArgument _ code details
  | .permissionDenied _ code details
  | .resourceExhausted _ code details => s!"{details} (os error {code})"
  | .userError _ => "stream did not contain valid UTF-8"
  | e => toString e

def readText (path : String) : IO (Except String String) := do
  try
    return .ok (← IO.FS.readFile path)
  catch e =>
    return .error (describe e)

end SpeculativeEvm

def main (args : List String) : IO UInt32 := do
  let exit ← SpeculativeEvm.Command.run SpeculativeEvm.readText args
  IO.print exit.output
  match exit.error with
  | some account => IO.eprintln account
  | none => if exit.code = 2 then IO.eprint SpeculativeEvm.Command.helpText
  return exit.code.toUInt32
