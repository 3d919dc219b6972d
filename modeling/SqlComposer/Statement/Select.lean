import SqlComposer.Compiler
import SqlComposer.Draft
import SqlComposer.Schema

/-!
# Queries

Clauses land in their places whatever the order of the calls: joins stay with the sources, the
restriction stands ahead of grouping and ordering. Columns without a table belong to the table
added last. A second `filter` is added to the first with `AND`, a second ordering follows the first.
-/
namespace SqlComposer

structure Source where
  schema : Schema
  tableAlias : Option String

structure Select where
  draft : Draft
  compiler : Compiler
  /-- the entity that columns without a table belong to -/
  entity : Entity
  tableAlias : Option String
  /-- the restriction or join that `andFilter` and `orFilter` extend -/
  predicateClause : Option Key
  sources : List Source
  ignored : List String

namespace Select

def start (c : Compiler) (entity : Entity) (tableAlias : Option String) : Select where
  draft := (Draft.empty.addList .select).addSource .fromClause entity.name tableAlias
  compiler := c
  entity := entity
  tableAlias := tableAlias
  predicateClause := none
  sources := [⟨Schema.ofEntity entity, tableAlias⟩]
  ignored := []

def ofEntity (c : Compiler) (entity : Entity) : Select :=
  start c entity none

def emptyAlias : Fault :=
  .missingArgument "alias" "an entity alias cannot be empty"

def ofEntityAs (c : Compiler) (entity : Entity) (tableAlias : String) : Except Fault Select :=
  if tableAlias = "" then .error emptyAlias else .ok (start c entity (some tableAlias))

def scope (q : Select) : Scope :=
  { entity := some q.entity.name, tableAlias := q.tableAlias }

def joinWith (q : Select) (tag : Tag) (joined : Entity) (tableAlias : Option String) (on : Expr) :
    Reading Select := do
  let key := q.draft.nextKey
  let opened :=
    q.draft.insertSource tag joined.name tableAlias fun p => p.tag.followsSources
  let draft ← opened.extendClause key { entity := some joined.name, tableAlias } on
  return { q with
    draft
    entity := joined
    tableAlias
    predicateClause := some key
    sources := q.sources ++ [⟨Schema.ofEntity joined, tableAlias⟩] }

def join (q : Select) (joined : Entity) (on : Expr) : Reading Select :=
  q.joinWith .join joined none on

def joinAs (q : Select) (joined : Entity) (tableAlias : String) (on : Expr) : Rendering Select :=
  if tableAlias = "" then throw emptyAlias
  else ExceptT.lift (q.joinWith .join joined (some tableAlias) on)

def leftJoin (q : Select) (joined : Entity) (on : Expr) : Reading Select :=
  q.joinWith .leftJoin joined none on

def rightJoin (q : Select) (joined : Entity) (on : Expr) : Reading Select :=
  q.joinWith .rightJoin joined none on

def fullJoin (q : Select) (joined : Entity) (on : Expr) : Reading Select :=
  q.joinWith .fullJoin joined none on

/-- Start the restriction, or add to it with `AND`. -/
def filter (q : Select) (predicate : Expr) : Reading Select := do
  let draft ← q.draft.addRestriction q.scope predicate fun p => p.tag.followsWhere
  return { q with
    draft
    predicateClause := (draft.partsOf .whereClause).head?.map Part.key }

def chain (q : Select) (tag : Tag) (predicate : Expr) : Reading Select := do
  let draft ← q.draft.nestExpression q.scope predicate tag fun p =>
    some p.key == q.predicateClause
  return { q with draft }

/-- Extend the restriction or join started last with `AND`. -/
def andFilter (q : Select) (predicate : Expr) : Reading Select :=
  q.chain .andClause predicate

/-- Extend the restriction or join started last with `OR`. -/
def orFilter (q : Select) (predicate : Expr) : Reading Select :=
  q.chain .orClause predicate

def nestOrder (q : Select) (tag : Tag) (field : Expr) : Reading Select := do
  let draft ← q.draft.nestExpression q.scope field tag fun p => p.tag.startsOrder
  return { q with draft }

/-- A second ordering goes on behind the first. -/
def orderWith (q : Select) (first next : Tag) (field : Expr) : Reading Select :=
  if q.draft.contains .orderBy || q.draft.contains .orderByDesc then q.nestOrder next field
  else do
    let draft ← q.draft.addExpression q.scope field first
    return { q with draft }

def orderBy (q : Select) (field : Expr) : Reading Select :=
  q.orderWith .orderBy .thenBy field

def orderByDesc (q : Select) (field : Expr) : Reading Select :=
  q.orderWith .orderByDesc .thenByDesc field

def thenBy (q : Select) (field : Expr) : Reading Select :=
  q.nestOrder .thenBy field

def thenByDesc (q : Select) (field : Expr) : Reading Select :=
  q.nestOrder .thenByDesc field

def member (q : Select) (e : Expr) : Rendering ColumnRef :=
  match q.scope.field? e with
  | some f => pure f
  | none => do
    let shown ← (ExceptT.lift e.shown : Rendering String)
    throw (.missingArgument "field" ("'" ++ shown ++ "' is not a member"))

/-- Group by a column; the grouping stands ahead of any ordering. -/
def groupBy (q : Select) (field : Expr) : Rendering Select := do
  let f ← q.member field
  let d := q.draft
  let opened :=
    if d.contains .groupBy then d
    else d.spend 1 (d.addAheadOf (.list d.nextKey .groupBy) fun p => p.tag.isOrder)
  return { q with
    draft := opened.spend 1 (opened.addToLast (.field opened.nextKey f) .groupBy) }

def map (q : Select) (source : Expr) : Rendering Select := do
  return { q with draft := q.draft.addField (← q.member source) }

def mapAs (q : Select) (source : Expr) (name : String) : Rendering Select :=
  if name = "" then throw (.missingArgument "alias" "a field alias cannot be empty")
  else do
    let f ← q.member source
    return { q with draft := q.draft.addField { f with resultAlias := some name } }

/-- Select a column whose values are converted when rows are read. An empty name is no name. -/
def mapWith (q : Select) (source : Expr) (name : Option String) (converter : Converter) :
    Rendering Select := do
  let f ← q.member source
  let named :=
    match name.filter fun s => s ≠ "" with
    | some s => { f with resultAlias := some s }
    | none => f
  return { q with draft := q.draft.addField { named with converter := some converter } }

def ignore (q : Select) (member : String) : Select :=
  { q with ignored := q.ignored ++ [member] }

/-- The result column of a member, read from the first source that has the member. -/
def projectedField (q : Select) (f : FieldDef) : ColumnRef :=
  match q.sources.find? fun s => (s.schema.field? f.memberName).isSome with
  | some s => { ColumnRef.ofEntity s.schema.name f.memberName with tableAlias := s.tableAlias }
  | none => .named f.memberName

def projection (q : Select) (result : Entity) : List ColumnRef :=
  ((Schema.ofEntity result).fields.filter fun f => !q.ignored.contains f.memberName).map
    q.projectedField

def forType (q : Select) (result : Entity) : Select :=
  { q with
    draft := (q.draft.supplyFields (q.projection result)).closeSelect
    entity := result
    tableAlias := none }

def compileAs (q : Select) (result : Entity) : Rendering Compiled :=
  q.compiler.compile (q.draft.supplyFields (q.projection result)).toTree

def compile (q : Select) : Rendering Compiled :=
  q.compileAs q.entity

end Select

end SqlComposer
