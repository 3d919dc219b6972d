/-!
# Tags

Every part of a statement carries one tag. The tag decides where the part may stand relative to
others and how it is written.
-/
namespace SqlComposer

inductive Tag where
  /-- a fragment with no role of its own: a bracket, an operator, a closing part -/
  | plain
  | select
  /-- a column of a select list -/
  | item
  | fromClause
  | join
  | leftJoin
  | rightJoin
  | fullJoin
  | whereClause
  | andClause
  | orClause
  | orderBy
  | orderByDesc
  | thenBy
  | thenByDesc
  | groupBy
  | having
  | insert
  | insertFields
  | values
  | update
  | assignments
  | delete
  | createTable
  | column
  | ignoredColumn
  | tableKey
  | alterTable
  | alterColumn
  | addColumn
  | dropColumn
  | renameTable
  | dropTable
  | parameter
  /-- the line that declares an output parameter of a procedure call -/
  | outputDeclaration
  /-- the column that returns an output parameter -/
  | outputColumn
  deriving DecidableEq, Repr

namespace Tag

def all : List Tag :=
  [.plain, .select, .item, .fromClause, .join, .leftJoin, .rightJoin, .fullJoin, .whereClause,
   .andClause, .orClause, .orderBy, .orderByDesc, .thenBy, .thenByDesc, .groupBy, .having,
   .insert, .insertFields, .values, .update, .assignments, .delete, .createTable, .column,
   .ignoredColumn, .tableKey, .alterTable, .alterColumn, .addColumn, .dropColumn, .renameTable,
   .dropTable, .parameter, .outputDeclaration, .outputColumn]

def text : Tag → String
  | .plain => "None"
  | .select => "Select"
  | .item => "Include"
  | .fromClause => "From"
  | .join => "Join"
  | .leftJoin => "LeftJoin"
  | .rightJoin => "RightJoin"
  | .fullJoin => "FullJoin"
  | .whereClause => "Where"
  | .andClause => "And"
  | .orClause => "Or"
  | .orderBy => "OrderBy"
  | .orderByDesc => "OrderByDesc"
  | .thenBy => "ThenBy"
  | .thenByDesc => "ThenByDesc"
  | .groupBy => "GroupBy"
  | .having => "Having"
  | .insert => "Insert"
  | .insertFields => "InsertFields"
  | .values => "Values"
  | .update => "Update"
  | .assignments => "Set"
  | .delete => "Delete"
  | .createTable => "CreateTable"
  | .column => "Column"
  | .ignoredColumn => "IgnoreColumn"
  | .tableKey => "TableKeys"
  | .alterTable => "AlterTable"
  | .alterColumn => "AlterField"
  | .addColumn => "AddColumn"
  | .dropColumn => "DropColumn"
  | .renameTable => "RenameTable"
  | .dropTable => "DropTable"
  | .parameter => "Parameter"
  | .outputDeclaration => "OutParameterPrefix"
  | .outputColumn => "OutParameterSuffix"

def ofText? (s : String) : Option Tag :=
  all.find? fun t => t.text == s

def isJoin : Tag → Bool
  | .join | .leftJoin | .rightJoin | .fullJoin => true
  | _ => false

def isSource (t : Tag) : Bool :=
  t == .fromClause || t.isJoin

def isOrder : Tag → Bool
  | .orderBy | .orderByDesc | .thenBy | .thenByDesc => true
  | _ => false

def startsOrder : Tag → Bool
  | .orderBy | .orderByDesc => true
  | _ => false

/-- Items of the bracketed list of a table definition, which commas separate. -/
def isTableItem : Tag → Bool
  | .column | .tableKey => true
  | _ => false

/-- Clauses written after the restriction of a query. -/
def followsWhere (t : Tag) : Bool :=
  t == .groupBy || t == .having || t.isOrder

/-- Clauses written after the tables of a query. -/
def followsSources (t : Tag) : Bool :=
  t == .whereClause || t.followsWhere

end Tag

/-- What is asked of one column of a table. -/
inductive ColumnChange where
  /-- declare the column in a table definition -/
  | declare
  | add
  | alter
  | drop
  deriving DecidableEq, Repr

namespace ColumnChange

def text : ColumnChange → String
  | .declare => "COLUMN"
  | .add => "ADD COLUMN"
  | .alter => "ALTER COLUMN"
  | .drop => "DROP COLUMN"

end ColumnChange

end SqlComposer
