import SqlComposer.Proofs.Table.Items

/-!
# The calls of a definition

The calls ahead of `create` leave members out and ask for keys. The definition lists a column for
every member that is left, and then the keys.
-/
namespace SqlComposer.Table

inductive Call where
  | ignore (member : String)
  | key (member : String) (autoIncrement : Bool)
  | compositeKey (members : List String)
  | foreignKey (member table reference : String)
  deriving DecidableEq

namespace Call

def apply (q : Table) : Call → Except Fault Table
  | .ignore member => .ok (q.ignore member)
  | .key member autoIncrement => .ok (q.key member autoIncrement)
  | .compositeKey members => q.compositeKey members
  | .foreignKey member table reference => .ok (q.foreignKey member table reference)

def names : Call → List String
  | .ignore member | .key member _ => [member]
  | .compositeKey members => members
  | .foreignKey member table reference => [member, table, reference]

/-- The constraint of a key. A key that numbers its rows has none of its own. -/
def constraint? : Call → Option String
  | .ignore _ | .key _ true => none
  | .key member false => some ("PRIMARY KEY (" ++ member ++ ")")
  | .compositeKey members => some ("PRIMARY KEY (" ++ Text.joinWith ", " members ++ ")")
  | .foreignKey member table reference =>
    some ("FOREIGN KEY(" ++ member ++ ") REFERENCES " ++ table ++ "(" ++ reference ++ ")")

def id : Call → String
  | .ignore member | .key member _ => member
  | .compositeKey members => Text.joinWith ", " members
  | .foreignKey member _ _ => member

def item? (call : Call) : Option Item :=
  match call with
  | .ignore member => some (.ignored member)
  | call => call.constraint?.map (.constraint call.id)

end Call

def run (c : Compiler) (s : Schema) (calls : List Call) : Except Fault Table :=
  calls.foldlM Call.apply (.ofSchema c s)

def columnOf (numbered : String → Bool) (f : FieldDef) : ColumnDecl where
  name := f.memberName
  columnType := f.columnType
  nullable := f.nullable
  autoIncrement := numbered f.memberName

def items (d : Dialect) (s : Schema) (calls : List Call) : List String :=
  (s.fields.filter fun f => .ignore f.memberName ∉ calls).map
      (fun f => columnText d (columnOf (fun m => decide (.key m true ∈ calls)) f)) ++
    calls.filterMap Call.constraint?

end SqlComposer.Table
