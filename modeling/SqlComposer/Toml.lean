import SqlComposer.Fault

/-!
# TOML values

A document is a table of keyed values. A record can be taken from a table, by the names of its
fields, or from an array, by their order; a date or time is a record without any field. An
alternative can be given by its name or as a table that holds nothing but that name.
-/
namespace SqlComposer

/-- How a table came to be, which decides how it can still grow. -/
inductive Toml.Origin where
  /-- written in braces -/
  | inline
  /-- named by a header of its own -/
  | header
  /-- named on the way to the table of a header -/
  | implied
  /-- named in front of the last of some dotted keys -/
  | dotted
  deriving DecidableEq, Repr

inductive Toml where
  | text (s : String)
  | integer (n : Int64)
  | float (x : Float)
  | bool (b : Bool)
  /-- a date, a time of day or both, as written -/
  | moment (written : String)
  | array (items : List Toml)
  | table (origin : Toml.Origin) (fields : List (String × Toml))
  /-- the tables that headers in double brackets add -/
  | tables (items : List (List (String × Toml)))

namespace Toml

abbrev Fields := List (String × Toml)

def fault (reason : String) : Fault :=
  .malformedToml ("TOML parse error: " ++ reason)

def unfit {α : Type} (wanted : String) : Except Fault α :=
  .error (fault ("expected " ++ wanted))

def asText : Toml → Except Fault String
  | .text s => .ok s
  | _ => unfit "a string"

def asBool : Toml → Except Fault Bool
  | .bool b => .ok b
  | _ => unfit "a boolean"

def items? : Toml → Option (List Toml)
  | .array items => some items
  | .tables items => some (items.map (.table .header))
  | _ => none

def asList {α : Type} (read : Toml → Except Fault α) (v : Toml) : Except Fault (List α) :=
  match v.items? with
  | some items => items.mapM read
  | none => unfit "an array"

/-- The fields of a record that are given. An array gives them in the order of `names`, and a date
or time gives none of them. -/
def asRecord (names : List String) (v : Toml) : Except Fault Fields :=
  match v with
  | .table _ fields => .ok fields
  | .moment _ => .ok []
  | v =>
    match v.items? with
    | some items => .ok (names.zip items)
    | none => unfit "a table"

def isEmpty : Toml → Bool
  | .table _ [] => true
  | .array [] => true
  | _ => false

def alternative? : Toml → Option String
  | .text s => some s
  | .table _ [(name, v)] => if v.isEmpty then some name else none
  | _ => none

def asAlternative {α : Type} (ofName? : String → Option α) (v : Toml) : Except Fault α :=
  match v.alternative?.bind ofName? with
  | some a => .ok a
  | none => unfit "one of the known names"

namespace Fields

def required {α : Type} (fields : Fields) (name : String) (read : Toml → Except Fault α) :
    Except Fault α :=
  match fields.lookup name with
  | some v => read v
  | none => .error (fault ("missing field '" ++ name ++ "'"))

def optional {α : Type} (fields : Fields) (name : String) (read : Toml → Except Fault α)
    (absent : α) : Except Fault α :=
  match fields.lookup name with
  | some v => read v
  | none => .ok absent

end Fields

end Toml

end SqlComposer
