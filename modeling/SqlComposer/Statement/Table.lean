import SqlComposer.Compiler
import SqlComposer.Draft
import SqlComposer.Schema

/-!
# Table statements

Calls collect columns and keys of one table; a finisher makes them a definition, an alteration, a
renaming or a removal.
-/
namespace SqlComposer

structure Table where
  draft : Draft
  compiler : Compiler
  schema : Schema
  /-- the members that number the rows -/
  autoIncrement : List String

namespace Table

def ofSchema (c : Compiler) (s : Schema) : Table :=
  { draft := .empty, compiler := c, schema := s, autoIncrement := [] }

def name (q : Table) : String := q.schema.name

def ignore (q : Table) (member : String) : Table :=
  let d := q.draft
  { q with draft := d.spend 1 (d.add ((Part.text d.nextKey .ignoredColumn "").withId member)) }

def addTableKey (d : Draft) (id text : String) : Draft :=
  d.spend 1 (d.add (.tableKey d.nextKey id text))

/-- A primary key of one column. A key that numbers its rows is declared on the column. -/
def key (q : Table) (member : String) (autoIncrement : Bool) : Table :=
  if autoIncrement then { q with autoIncrement := q.autoIncrement ++ [member] }
  else { q with draft := addTableKey q.draft member ("PRIMARY KEY (" ++ member ++ ")") }

def compositeKey (q : Table) (members : List String) : Except Fault Table :=
  if members = [] then
    .error (.missingArgument "members" "a composite key needs at least one member")
  else
    let columns := Text.joinWith ", " members
    .ok { q with draft := addTableKey q.draft columns ("PRIMARY KEY (" ++ columns ++ ")") }

def foreignKey (q : Table) (member table reference : String) : Table :=
  let text := "FOREIGN KEY(" ++ member ++ ") REFERENCES " ++ table ++ "(" ++ reference ++ ")"
  { q with draft := addTableKey q.draft member text }

/-- Open an alteration; a statement holds one only. -/
def beginAlter (q : Table) : Except Fault Table :=
  if q.draft.contains .alterTable then
    .error (.unsupported q.compiler.dialect.name "more than one column alteration per statement")
  else .ok { q with draft := q.draft.addText .alterTable q.schema.name }

/-- Columns stay together, behind the opening of the definition. -/
def columnAnchor (t : Tree) : Tag :=
  if t.contains .column then .column else .createTable

def declareColumn (q : Table) (c : ColumnDecl) : Table :=
  let d := q.draft
  { q with draft := d.spend 1 (d.addAfter (.column d.nextKey c) (columnAnchor d.toTree)) }

def columnProperties (q : Table) (column : String) (type : ColumnType) (nullable : Option Bool) :
    Properties :=
  let ps := (Properties.empty.set .memberName (some column)).set .memberType
    (some (q.compiler.dialect.typeKeyword type))
  match nullable with
  | some b => ps.set .nullable (some (Value.boolText b))
  | none => ps

def alterWith (q : Table) (tag : Tag) (ps : Properties) : Except Fault Table := do
  let q ← q.beginAlter
  let d := q.draft
  return { q with draft := d.spend 1 (d.add (.properties d.nextKey tag ps)) }

/-- Declare, add, alter or drop one column. Type and nullability come from the schema where the
call gives none. -/
def column (q : Table) (column : String) (change : ColumnChange) (type : Option ColumnType)
    (nullable : Option Bool) : Except Fault Table :=
  if q.compiler.dialect.supportsChange change then
    let known := q.schema.field? column
    let type := type <|> known.map FieldDef.columnType
    let nullable := nullable <|> known.map FieldDef.nullable
    match change, type with
    | .declare, some type =>
      .ok (q.declareColumn { name := column, columnType := type, nullable := nullable.getD true })
    | .declare, none =>
      .error (.missingArgument "field_type" ("no type known for column '" ++ column ++ "'"))
    | .add, some type => q.alterWith .addColumn (q.columnProperties column type nullable)
    | .alter, some type => q.alterWith .alterColumn (q.columnProperties column type nullable)
    | .add, none | .alter, none =>
      .error (.missingArgument "field_type" "required when adding a column")
    | .drop, _ => do
      let q ← q.beginAlter
      return { q with draft := q.draft.addText .dropColumn column }
  else .error (.unsupported q.compiler.dialect.name change.text)

/-- Take the columns declared for members out of the draft. -/
def liftDeclared (s : Schema) (d : Draft) : List Part × Draft :=
  let isDeclared (p : Part) : Bool :=
    p.tag == .column && (p.id?.bind s.field?).isSome
  let keys := (d.parts.filter isDeclared).map Part.key
  keys.foldl (fun (taken, d) key =>
    match d.remove? key with
    | some (p, t) => (taken ++ [p], { t with nextKey := d.nextKey })
    | none => (taken, d)) ([], d)

def isIgnored (t : Tree) (member : String) : Bool :=
  (t.partsOf .ignoredColumn).any fun p => p.id? == some member

/-- Take the first element that satisfies `p`; the last element moves to its place. -/
def swapTake? {α : Type} (p : α → Bool) (xs : List α) : Option (α × List α) :=
  match xs.findIdx? p with
  | none => none
  | some i =>
    match xs[i]?, xs.getLast? with
    | some a, some last => some (a, (xs.set i last).dropLast)
    | _, _ => none

/-- The column of a member goes ahead of the columns that are there already. -/
def placeColumn (d : Draft) (p : Part) : Draft :=
  if d.contains .column then d.spend 0 (d.addBefore p .column)
  else d.spend 0 (d.addAfter p .createTable)

/-- Place the column of one member: the declared one, or else one made from the schema. -/
def placeMember (q : Table) (state : List Part × Draft) (f : FieldDef) : List Part × Draft :=
  let (declared, d) := state
  if isIgnored d.toTree f.memberName then state
  else
    match swapTake? (fun p => p.id? == some f.memberName) declared with
    | some (p, rest) => (rest, placeColumn d p)
    | none =>
      let c : ColumnDecl :=
        { name := f.memberName
          columnType := f.columnType
          nullable := f.nullable
          autoIncrement := q.autoIncrement.contains f.memberName }
      (declared, placeColumn (d.spend 1 d.toTree) (.column d.nextKey c))

/-- The draft of a definition: members are placed last to first, each ahead of those placed. -/
def definition (q : Table) : Draft :=
  let d := q.draft
  let opened := d.spend 1
    (d.addBefore (.text d.nextKey .createTable (q.compiler.dialect.createTable q.name)) .plain)
  let (declared, d) := q.schema.fields.reverse.foldl q.placeMember (liftDeclared q.schema opened)
  let d := declared.foldl (fun d p => d.spend 0 (d.addAfter p .column)) d
  d.addText .plain ")"

def create (q : Table) : Rendering Compiled :=
  q.compiler.compile q.definition.toTree

def compile (q : Table) : Rendering Compiled :=
  if q.draft.contains .alterTable then q.compiler.compile q.draft.toTree
  else throw (.missingArgument "column" "an ALTER TABLE needs a column operation")

def rename (q : Table) (newName : String) : Rendering Compiled :=
  if newName = "" then throw (.missingArgument "new_name" "a table needs a name")
  else
    let ps := (Properties.empty.set .key (some q.name)).set .value (some newName)
    let d := q.draft
    q.compiler.compile (d.add (.properties d.nextKey .renameTable ps))

def drop (q : Table) : Rendering Compiled :=
  q.compiler.compile (q.draft.addText .dropTable q.name).toTree

end Table

end SqlComposer
