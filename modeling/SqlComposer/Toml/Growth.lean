import SqlComposer.Toml

/-!
# How a document grows

Keys and headers add to the tables named before them. No key is given twice. A header opens a table
that has none yet; dotted keys open tables for themselves alone, and a table that a header opened
takes no dotted keys from outside. A list of tables grows at its end, and stands for its last
table where a path leads through it.
-/
namespace SqlComposer.Toml

/-- Put what `f` makes of the value at a key in its place. -/
def alter (key : String) (f : Option Toml → Option Toml) : Fields → Option Fields
  | [] => (f none).map fun v => [(key, v)]
  | (k, v) :: rest =>
    if k = key then (f (some v)).map fun v => (k, v) :: rest
    else (alter key f rest).map fun rest => (k, v) :: rest

/-- Change the last table of a list of tables. -/
def alterLast (f : Fields → Option Fields) : List Fields → Option (List Fields)
  | [] => none
  | [last] => (f last).map fun fields => [fields]
  | first :: rest => (alterLast f rest).map fun rest => first :: rest

/-- Change the table at a header's path; tables that are missing on the way are implied. -/
def within (f : Fields → Option Fields) : List String → Fields → Option Fields
  | [], fields => f fields
  | key :: path, fields =>
    alter key (fun
      | none => (within f path []).map (.table .implied)
      | some (.table .inline _) => none
      | some (.table origin inner) => (within f path inner).map (.table origin)
      | some (.tables items) => (alterLast (within f path) items).map .tables
      | some _ => none) fields

/-- The table that a header names: a new one, or one that was only implied. -/
def openTable (path : List String) (key : String) : Fields → Option Fields :=
  within (alter key fun
    | none => some (.table .header [])
    | some (.table .implied fields) => some (.table .header fields)
    | some _ => none) path

/-- One more table at the end of a list of tables. -/
def openItem (path : List String) (key : String) : Fields → Option Fields :=
  within (alter key fun
    | none => some (.tables [[]])
    | some (.tables items) => some (.tables (items ++ [[]]))
    | some _ => none) path

/-- Give a value to a new key behind a path of dotted keys. Only a table of dotted keys takes the
last key; one that is implied or ends a list of tables is passed through. -/
def assign (v : Toml) (key : String) : List String → Fields → Option Fields
  | [], fields =>
    alter key (fun
      | none => some v
      | some _ => none) fields
  | k :: path, fields =>
    alter k (fun
      | none => (assign v key path []).map (.table .dotted)
      | some (.table .dotted inner) => (assign v key path inner).map (.table .dotted)
      | some (.table .implied inner) =>
        if path = [] then none else (assign v key path inner).map (.table .implied)
      | some (.tables items) =>
        if path = [] then none else (alterLast (assign v key path) items).map .tables
      | some _ => none) fields

end SqlComposer.Toml
