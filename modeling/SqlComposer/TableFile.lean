import SqlComposer.Statement.Table
import SqlComposer.Toml.Document

/-!
# Table files

A table file lists tables with their columns and foreign keys. The columns marked as keys make
the primary key, and a single one of them can number its rows.
-/
namespace SqlComposer

structure ColumnEntry where
  name : String
  columnType : ColumnType
  nullable : Bool
  key : Bool
  autoIncrement : Bool
  deriving DecidableEq, Repr

structure ForeignKeyEntry where
  column : String
  table : String
  reference : String
  deriving DecidableEq, Repr

structure TableEntry where
  name : String
  columns : List ColumnEntry
  foreignKeys : List ForeignKeyEntry
  deriving DecidableEq, Repr

namespace ColumnEntry

def ofToml (v : Toml) : Except Fault ColumnEntry := do
  let fields ← v.asRecord ["name", "type", "nullable", "key", "auto_increment"]
  return {
    name := ← fields.required "name" Toml.asText
    columnType := ← fields.required "type" (Toml.asAlternative ColumnType.ofName?)
    nullable := ← fields.optional "nullable" Toml.asBool true
    key := ← fields.optional "key" Toml.asBool false
    autoIncrement := ← fields.optional "auto_increment" Toml.asBool false }

def member (c : ColumnEntry) : Member :=
  { name := c.name, columnType := c.columnType, nullable := c.nullable }

end ColumnEntry

def ForeignKeyEntry.ofToml (v : Toml) : Except Fault ForeignKeyEntry := do
  let fields ← v.asRecord ["column", "table", "references"]
  return {
    column := ← fields.required "column" Toml.asText
    table := ← fields.required "table" Toml.asText
    reference := ← fields.required "references" Toml.asText }

namespace TableEntry

def ofToml (v : Toml) : Except Fault TableEntry := do
  let fields ← v.asRecord ["name", "column", "foreign_key"]
  return {
    name := ← fields.required "name" Toml.asText
    columns := ← fields.optional "column" (Toml.asList ColumnEntry.ofToml) []
    foreignKeys := ← fields.optional "foreign_key" (Toml.asList ForeignKeyEntry.ofToml) [] }

def readAll (text : String) : Except Fault (List TableEntry) := do
  let fields ← (← Toml.read text).asRecord ["table"]
  fields.optional "table" (Toml.asList ofToml) []

def schema (t : TableEntry) : Schema :=
  .ofTable t.name (t.columns.map ColumnEntry.member)

def withKeys (t : TableEntry) (q : Table) : Except Fault Table :=
  match t.columns.filter ColumnEntry.key with
  | [] => .ok q
  | [c] => .ok (q.key c.name c.autoIncrement)
  | many => q.compositeKey (many.map ColumnEntry.name)

def create (t : TableEntry) (c : Compiler) : Except Fault Compiled := do
  let q ← t.withKeys (.ofSchema c t.schema)
  let q := t.foreignKeys.foldl (fun q k => q.foreignKey k.column k.table k.reference) q
  q.create.run.value

end TableEntry

end SqlComposer
