/-!
# Column types

The semantic type of a column. Every dialect has a keyword for each.
-/
namespace SqlComposer

inductive ColumnType where
  | bool
  | tinyInt
  | smallInt
  | int
  | bigInt
  | real
  | float
  | decimal
  | string
  | char
  | dateTime
  | date
  | guid
  | binary
  deriving DecidableEq, Repr

namespace ColumnType

def all : List ColumnType :=
  [.bool, .tinyInt, .smallInt, .int, .bigInt, .real, .float, .decimal, .string, .char,
   .dateTime, .date, .guid, .binary]

def text : ColumnType → String
  | .bool => "Bool"
  | .tinyInt => "TinyInt"
  | .smallInt => "SmallInt"
  | .int => "Int"
  | .bigInt => "BigInt"
  | .real => "Real"
  | .float => "Float"
  | .decimal => "Decimal"
  | .string => "String"
  | .char => "Char"
  | .dateTime => "DateTime"
  | .date => "Date"
  | .guid => "Guid"
  | .binary => "Binary"

/-- The name a type has in a table file. -/
def name : ColumnType → String
  | .bool => "bool"
  | .tinyInt => "tinyint"
  | .smallInt => "smallint"
  | .int => "int"
  | .bigInt => "bigint"
  | .real => "real"
  | .float => "float"
  | .decimal => "decimal"
  | .string => "string"
  | .char => "char"
  | .dateTime => "datetime"
  | .date => "date"
  | .guid => "guid"
  | .binary => "binary"

def ofName? (s : String) : Option ColumnType :=
  all.find? fun t => t.name == s

end ColumnType

end SqlComposer
