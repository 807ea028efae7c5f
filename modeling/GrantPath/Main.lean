import GrantPath.CommandLine.Command
import Std.Time.DateTime.Timestamp

/-! # The program's entry

Reads the files that the arguments name and the time, and prints what the program says.
-/

namespace GrantPath.CommandLine

/-- The bytes of a file, if it can be read. -/
def readFile? (path : String) : IO (Option ByteArray) := do
  try
    return some (← IO.FS.readBinFile path)
  catch _ =>
    return none

end GrantPath.CommandLine

/-- Runs the program. -/
def main (arguments : List String) : IO UInt32 := do
  let now ← Std.Time.Timestamp.now
  let ms := now.toMillisecondsSinceUnixEpoch.val.toNat
  let contents ← (GrantPath.CommandLine.filesNamed arguments).mapM fun path => do
    return (path, ← GrantPath.CommandLine.readFile? path)
  let files (path : String) : Option ByteArray := (contents.lookup path).join
  let elapsed ← IO.monoNanosNow
  let outcome := GrantPath.CommandLine.run files (.startingAt ms elapsed) arguments
  IO.print outcome.stdout
  IO.eprint outcome.stderr
  return outcome.code
