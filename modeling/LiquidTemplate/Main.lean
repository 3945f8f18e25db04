import LiquidTemplate.Command.Arguments
import LiquidTemplate.Command.Folder

/-!
# The program

Reads files from disk and writes to the standard streams; everything else is decided by
`runProgram`.
-/

namespace LiquidTemplate

/-- The text of a file on disk. -/
def readFromDisk (path : Text) : IO (Except ReadFailure Text) := do
  try
    let content ← IO.FS.readBinFile (String.ofList path)
    return Folder.decode content.toList
  catch e =>
    return match e with
      | .noFileOrDirectory _ _ _ => .error .notFound
      | .inappropriateType _ _ _ => .error .isFolder
      | .permissionDenied _ _ _ => .error (.unreadable "Permission denied (os error 13)".toList)
      | other => .error (.unreadable (toString other).toList)

end LiquidTemplate

def main (args : List String) : IO UInt32 := do
  let outcome ← LiquidTemplate.runProgram LiquidTemplate.readFromDisk (args.map String.toList)
  (← IO.getStdout).putStr (String.ofList outcome.output)
  (← IO.getStderr).putStr (String.ofList outcome.errors)
  return outcome.exitCode.toUInt32
