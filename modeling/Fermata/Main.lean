import Fermata.Command.Basic

/-!
# The command line

`main` hands the words of the command line, the files and the environment to `Command.program` and
prints what it says.
-/

namespace Fermata.Command

/-- The text of a file, if it can be read. -/
def readFile? (path : String) : IO (Option String) := do
  try return some (← IO.FS.readFile path)
  catch _ => return none

/-- The environment variables that the program looks at. -/
def variableNames : List String :=
  pathVariable :: [nameSetting, depthSetting, traceSetting, stdlibSetting, filterSetting].map
    fun key => variableStart ++ key.toUpper

/-- The values of those variables that are set. -/
def environment : IO Variables.Environment := do
  let values ← variableNames.mapM fun name => return (name, ← IO.getEnv name)
  return values.filterMap fun (name, v) => v.map (name, ·)

end Fermata.Command

/-- Run the program. -/
def main (args : List String) : IO UInt32 := do
  let env ← Fermata.Command.environment
  let result ← Fermata.Command.program Fermata.Command.readFile? env args
  IO.print result.out
  IO.eprint result.err
  return result.code.toUInt32
