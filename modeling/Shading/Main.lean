/-
  Shading.Main — the command line.
-/
import Shading.Cli

namespace Shading.Cli

/-- The text of the file at a path. -/
def readPath (path : String) : IO (Except FileError String) := do
  try
    let bytes ← IO.FS.readBinFile path
    return decode bytes
  catch e =>
    match e with
    | .noFileOrDirectory _ _ _ => return .error .notFound
    | e => return .error (.other (toString e))

end Shading.Cli

/-- Runs the program. -/
def main (args : List String) : IO UInt32 := do
  match Shading.Cli.parseArguments args with
  | none =>
    (← IO.getStderr).putStr Shading.Cli.usage
    return 2
  | some inv =>
    let outcome := Shading.Cli.run inv (← Shading.Cli.readPath inv.path)
    (← IO.getStdout).putStr outcome.stdout
    (← IO.getStderr).putStr outcome.stderr
    return outcome.exitCode
