import SqlComposer.Compiler
import SqlComposer.Draft
import SqlComposer.Schema

/-!
# Updates

Assignments and an optional restriction. An instance is written back to the row that its key
members address. An update without an assignment does not compile.
-/
namespace SqlComposer

structure Update where
  draft : Draft
  compiler : Compiler
  schema : Schema

namespace Update

def ofEntity (c : Compiler) (e : Entity) : Update where
  draft := (Draft.empty.addText .update ("UPDATE " ++ e.name)).addList .assignments
  compiler := c
  schema := Schema.ofEntity e

/-- Assign a value to a column, which the schema need not know. -/
def set (q : Update) (member : String) (v : Value) : Update :=
  let p : Parameter :=
    { source := .value v
      name := some member
      declared := (q.schema.field? member).map FieldDef.columnType }
  { q with draft :=
      q.draft.spend 1 (q.draft.addToLast (.parameter q.draft.nextKey .plain p) .assignments) }

def filter (q : Update) (predicate : Expr) : Reading Update := do
  let draft ← q.draft.addRestriction { entity := some q.schema.name } predicate fun _ => false
  return { q with draft }

/-- Assign every member that is no key member, on the row that the key members address. -/
def ofInstance (c : Compiler) (e : Entity) (values : List Value) (key : Option String) :
    Rendering Update := do
  let q := ofEntity c e
  let predicate ← (liftM (Key.predicate q.schema values key) : Rendering Expr)
  let keys := Key.members q.schema key
  let assigned := (q.schema.fields.zip values).filter fun pair =>
    !keys.contains pair.1.memberName
  let q := assigned.foldl (fun q pair => q.set pair.1.memberName pair.2) q
  ExceptT.lift (q.filter predicate)

def ofExample : Except Fault Update :=
  .error (.notImplemented "update from example object")

def assignmentCount (q : Update) : Nat :=
  ((q.draft.partsOf .assignments).flatMap Part.children).length

def compile (q : Update) : Rendering Compiled :=
  if q.assignmentCount = 0 then
    throw (.missingArgument "set" ("UPDATE " ++ q.schema.name ++ " has no assignments"))
  else q.compiler.compile q.draft.toTree

end Update

end SqlComposer
