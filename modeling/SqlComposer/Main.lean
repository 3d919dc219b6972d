import SqlComposer.CommandLine.Report

/-!
# The program

Reads the files and variables that the arguments call for and prints the report.
-/
namespace SqlComposer.Main

def variableNames : List String :=
  [Settings.urlVariable, "XDG_CONFIG_HOME", "HOME", "NO_COLOR", "CLICOLOR", "CLICOLOR_FORCE"]

def readState (path : String) : IO FileState := do
  try
    return .text (← IO.FS.readFile path)
  catch e =>
    match e with
    | .noFileOrDirectory .. => return .absent
    | .inappropriateType _ _ "not a directory" => return .behindFile
    | .inappropriateType .. => return .directory
    | .permissionDenied .. => return .forbidden
    | e => return .unreadable (toString e)

def gather (args : List String) : IO Surroundings := do
  let bindings ← variableNames.filterMapM fun name => do
    return (← IO.getEnv name).map fun value => (name, value)
  let place : Surroundings :=
    { file := fun _ => .absent
      environment := fun name => bindings.lookup name
      isTerminal := ← (← IO.getStdout).isTty }
  let states ← (CommandLine.filesRead place args).mapM fun path => do
    return (path, ← readState path)
  return { place with file := fun path => (states.lookup path).getD .absent }

end SqlComposer.Main

open SqlComposer in
def main (args : List String) : IO UInt32 := do
  let r := CommandLine.report (← Main.gather args) args
  IO.print r.output
  IO.eprint r.errors
  return r.exit.toUInt32
