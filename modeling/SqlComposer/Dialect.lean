import SqlComposer.Tag
import SqlComposer.Text
import SqlComposer.Value

/-!
# Dialects

What each target database asks of literals, column types and table statements.
-/
namespace SqlComposer

inductive Dialect where
  | sqlite
  | sqlServer
  deriving DecidableEq, Repr, Inhabited

namespace Dialect

def all : List Dialect := [.sqlite, .sqlServer]

def name : Dialect → String
  | .sqlite => "SQLite"
  | .sqlServer => "SQL Server"

/-- The name a dialect has in a settings file. -/
def keyword : Dialect → String
  | .sqlite => "sqlite"
  | .sqlServer => "sqlserver"

def ofKeyword? (s : String) : Option Dialect :=
  all.find? fun d => d.keyword == s

/-- Read a dialect's name, in any case; `mssql` is a second name of SQL Server. -/
def read (s : String) : Except String Dialect :=
  match Text.lowered s with
  | "sqlite" => .ok .sqlite
  | "sqlserver" | "mssql" => .ok .sqlServer
  | other => .error ("unknown dialect '" ++ other ++ "'")

def typeKeyword : Dialect → ColumnType → String
  | _, .bool => "bit"
  | _, .tinyInt => "tinyint"
  | _, .smallInt => "smallint"
  | _, .int => "int"
  | _, .bigInt => "bigint"
  | _, .real => "real"
  | _, .float => "float"
  | .sqlite, .decimal => "decimal"
  | .sqlServer, .decimal => "decimal(18,2)"
  | .sqlite, .string => "varchar(1000)"
  | .sqlServer, .string => "nvarchar(max)"
  | .sqlite, .char => "char(1)"
  | .sqlServer, .char => "nchar(1)"
  | _, .dateTime => "datetime"
  | _, .date => "date"
  | .sqlite, .guid => "varchar(36)"
  | .sqlServer, .guid => "uniqueidentifier"
  | .sqlite, .binary => "blob"
  | .sqlServer, .binary => "varbinary(max)"

def autoIncrementType : Dialect → ColumnType → String
  | .sqlite, _ => "integer"
  | .sqlServer, t => Dialect.sqlServer.typeKeyword t

def autoIncrementKeyword : Dialect → String
  | .sqlite => "PRIMARY KEY AUTOINCREMENT"
  | .sqlServer => "IDENTITY(1,1) PRIMARY KEY"

def addColumnKeyword : Dialect → String
  | .sqlite => "ADD COLUMN"
  | .sqlServer => "ADD"

def supportsChange : Dialect → ColumnChange → Bool
  | .sqlite, .declare | .sqlite, .add => true
  | .sqlite, _ => false
  | .sqlServer, _ => true

def createTable : Dialect → String → String
  | .sqlite, table => "CREATE TABLE IF NOT EXISTS " ++ table ++ " ("
  | .sqlServer, table => "CREATE TABLE " ++ table ++ " ("

def renameTable : Dialect → String → String → String
  | .sqlite, table, newName => "ALTER TABLE " ++ table ++ " RENAME TO " ++ newName
  | .sqlServer, table, newName => "EXEC sp_rename '" ++ table ++ "', '" ++ newName ++ "'"

def supportsProcedures : Dialect → Bool
  | .sqlite => false
  | .sqlServer => true

def timestampSeparator : Dialect → Char
  | .sqlite => ' '
  | .sqlServer => 'T'

def bitLiteral (b : Bool) : String :=
  if b then "1" else "0"

/-- The literal of a value, or `none` for raw text, which has none. A number declared as a truth
value is 0 or 1, and a double that is no number is `NULL`. -/
def literal? (d : Dialect) (v : Value) (declared : Option ColumnType) : Option String :=
  match v with
  | .null => some "NULL"
  | .bool b => some (bitLiteral b)
  | .int n =>
    if declared = some .bool then some (bitLiteral (n ≠ 0)) else some (Value.intText n)
  | .float x => if x.isFinite then some (Value.floatLayout.write x) else some "NULL"
  | .decimal s => some s
  | .string s => some (Text.quoted s)
  | .dateTime t => some (Text.quoted (t.text d.timestampSeparator))
  | .date day => some (Text.quoted day.text)
  | .uuid u => some (Text.quoted u.text)
  | .raw _ => none

/-- A value as it is written into a statement: its literal, or else its text. -/
def written (d : Dialect) (v : Value) (declared : Option ColumnType) : String :=
  (d.literal? v declared).getD v.text

end Dialect

end SqlComposer
