/-!
# Surroundings

What a command can see of the place it runs in: the files, the environment variables and whether
it writes to a terminal.
-/
namespace SqlComposer

inductive FileState where
  | absent
  /-- a path that goes on behind a file -/
  | behindFile
  | text (content : String)
  | directory
  | forbidden
  | unreadable (reason : String)
  deriving DecidableEq, Repr

structure Surroundings where
  file : String → FileState
  environment : String → Option String
  isTerminal : Bool := false

namespace FileState

def exists? : FileState → Bool
  | .absent | .behindFile => false
  | _ => true

def read : FileState → Except String String
  | .absent => .error "No such file or directory (os error 2)"
  | .behindFile => .error "Not a directory (os error 20)"
  | .text content => .ok content
  | .directory => .error "Is a directory (os error 21)"
  | .forbidden => .error "Permission denied (os error 13)"
  | .unreadable reason => .error reason

end FileState

namespace Surroundings

/-- One more name on a path, given latest first. -/
def enter (path : List String) (name : String) : List String :=
  if name = "" ∨ name = "." then path
  else if name = ".." then
    match path with
    | [] => [name]
    | _ :: parents => parents
  else name :: path

/-- The names on a path, beginning with a slash if the path does. -/
def components (path : String) : List String :=
  (if path.startsWith "/" then ["/"] else []) ++ ((path.splitOn "/").foldl enter []).reverse

/-- What a path leads to in a directory with these files. -/
def find (files : List (String × String)) (path : String) : FileState :=
  let target := components path
  match files.find? fun file => components file.1 = target with
  | some file =>
    if path.endsWith "/" then .behindFile else .text file.2
  | none =>
    if path = "" then .absent
    else if target = [] ∨ files.any fun file => target.isPrefixOf (components file.1) then
      .directory
    else if files.any fun file => (components file.1).isPrefixOf target then .behindFile
    else .absent

/-- A directory given by its files, with variables. -/
def ofFiles (files bindings : List (String × String)) : Surroundings where
  file := find files
  environment := fun name => bindings.lookup name

end Surroundings

end SqlComposer
