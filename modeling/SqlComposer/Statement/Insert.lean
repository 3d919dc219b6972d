import SqlComposer.Compiler
import SqlComposer.Draft
import SqlComposer.Schema

/-!
# Inserting an instance

Columns and values run in parallel: every member that has a value and is not ignored brings one
of each.
-/
namespace SqlComposer

structure Insert where
  compiler : Compiler
  schema : Schema
  values : List Value
  ignored : List String := []

namespace Insert

def ofInstance (c : Compiler) (e : Entity) (values : List Value) : Insert :=
  { compiler := c, schema := Schema.ofEntity e, values }

def ignore (q : Insert) (member : String) : Insert :=
  { q with ignored := q.ignored ++ [member] }

def opening (q : Insert) : Draft :=
  ((Draft.empty.addText .insert ("INSERT INTO " ++ q.schema.name)).addList .insertFields).addList
    .values

def addPair (d : Draft) (f : FieldDef) (v : Value) : Draft :=
  let withField := d.spend 1
    (d.addToLast (.field d.nextKey (.named f.memberName)) .insertFields)
  withField.spend 1
    (withField.addToLast
      (.parameter withField.nextKey .plain
        { source := .value v, declared := some f.columnType }) .values)

def pairs (q : Insert) : List (FieldDef × Value) :=
  (q.schema.fields.zip q.values).filter fun pair => !q.ignored.contains pair.1.memberName

def draft (q : Insert) : Draft :=
  q.pairs.foldl (fun d pair => addPair d pair.1 pair.2) q.opening

def compile (q : Insert) : Rendering Compiled :=
  q.compiler.compile q.draft.toTree

end Insert

end SqlComposer
