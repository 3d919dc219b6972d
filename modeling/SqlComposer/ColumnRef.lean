import SqlComposer.View

/-!
# Columns in a statement
-/
namespace SqlComposer

/-- A column as a statement mentions it. Its table is given by an alias, which wins, or by an
entity, whose own alias in the statement is looked up when the statement is written. -/
structure ColumnRef where
  field : String
  /-- the name of the column in the result, if it is another than its own -/
  resultAlias : Option String := none
  entity : Option String := none
  tableAlias : Option String := none
  converter : Option Converter := none
  columnType : Option ColumnType := none

namespace ColumnRef

def named (field : String) : ColumnRef := { field }

def ofEntity (entity field : String) : ColumnRef := { field, entity := some entity }

/-- The name the column is known by in a result. -/
def resultName (f : ColumnRef) : String :=
  f.resultAlias.getD f.field

def qualifier? (f : ColumnRef) (v : View) : Option String :=
  if v.qualify then f.tableAlias <|> f.entity.map fun e => (v.aliases.find? e).getD e else none

def render (f : ColumnRef) (v : View) : String :=
  let column :=
    match f.qualifier? v with
    | some q => q ++ "." ++ f.field
    | none => f.field
  match f.resultAlias with
  | some name => if name = f.field then column else column ++ " AS " ++ name
  | none => column

end ColumnRef

end SqlComposer
