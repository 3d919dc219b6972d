import SqlComposer.Compiler
import SqlComposer.Draft
import SqlComposer.Schema

/-!
# Deletions

A deletion has an optional restriction; an instance is deleted by its key members.
-/
namespace SqlComposer

structure Delete where
  draft : Draft
  compiler : Compiler
  schema : Schema

namespace Delete

def ofEntity (c : Compiler) (e : Entity) : Delete where
  draft := (Draft.empty.addList .delete).addSource .fromClause e.name none
  compiler := c
  schema := Schema.ofEntity e

def filter (q : Delete) (predicate : Expr) : Reading Delete := do
  let draft ← q.draft.addRestriction { entity := some q.schema.name } predicate fun _ => false
  return { q with draft }

def ofInstance (c : Compiler) (e : Entity) (values : List Value) (key : Option String) :
    Rendering Delete := do
  let q := ofEntity c e
  let predicate ← (liftM (Key.predicate q.schema values key) : Rendering Expr)
  ExceptT.lift (q.filter predicate)

def ofExample : Except Fault Delete :=
  .error (.notImplemented "delete by example object")

def compile (q : Delete) : Rendering Compiled :=
  q.compiler.compile q.draft.toTree

end Delete

end SqlComposer
