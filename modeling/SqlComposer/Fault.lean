import SqlComposer.Tag

/-!
# Faults

Why a statement cannot be built, compiled or run.
-/
namespace SqlComposer

inductive Fault where
  | missingArgument (argument context : String)
  | unsupported (dialect operation : String)
  /-- a list whose tag opens no list -/
  | unknownList (tag : Tag)
  | notImplemented (what : String)
  | noPrimaryKey (entity : String)
  | database (text : String)
  | connection (text : String)
  | execution (text : String)
  | configuration (text : String)
  | malformedToml (text : String)
  | inputOutput (text : String)
  deriving DecidableEq, Repr

namespace Fault

def message : Fault → String
  | .missingArgument argument context => "Missing argument '" ++ argument ++ "': " ++ context
  | .unsupported dialect operation => dialect ++ " does not support " ++ operation
  | .unknownList tag =>
    "OperationType " ++ tag.text ++ " is not implemented for field list groups"
  | .notImplemented what => "Not implemented: " ++ what
  | .noPrimaryKey entity =>
    "Entity '" ++ entity ++ "' has no primary key (expected 'Id' or '" ++ entity ++ "Id')"
  | .database text => "Database error: " ++ text
  | .connection text => "Connection error: " ++ text
  | .execution text => "Execution error: " ++ text
  | .configuration text => "Configuration error: " ++ text
  | .malformedToml text => "TOML error: " ++ text
  | .inputOutput text => "IO error: " ++ text

/-- What stands behind a fault, written after its own message when the whole chain is shown. -/
def cause? : Fault → Option String
  | .malformedToml text => some text
  | .inputOutput text => some text
  | _ => none

end Fault

end SqlComposer
