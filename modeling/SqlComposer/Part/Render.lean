import SqlComposer.Part
import SqlComposer.Text

/-!
# Writing a part

Reading a deferred value and refusing a list whose tag opens none are the two effects of writing.
A list drops its empty children and joins the others with commas. A clause writes its leaves as its
body and the clauses nested in it behind the body.
-/
namespace SqlComposer

abbrev Rendering := ExceptT Fault Reading

namespace Parameter

def value? (p : Parameter) : Reading (Option Value) :=
  match p.source with
  | .value v => pure (some v)
  | .deferred d => return some (← d.read)
  | .expr e => e.evaluate

def bare (v : View) (p : Parameter) : Reading String := do
  match ← p.value? with
  | some x => pure (v.dialect.written x p.declared)
  | none =>
    match p.source with
    | .expr e => do renderAtoms v (← Scope.atoms {} e)
    | _ => pure ""

def render (v : View) (p : Parameter) : Reading String := do
  let s ← p.bare v
  match p.name with
  | some name => return if name = "" then s else name ++ "=" ++ s
  | none => return s

end Parameter

def notNull (nullable : Bool) : String :=
  if nullable then "" else " NOT NULL"

def Properties.render (v : View) (tag : Tag) (ps : Properties) : String :=
  let name := (ps.get? .memberName).getD ""
  let type := (ps.get? .memberType).getD ""
  match tag with
  | .addColumn =>
    v.dialect.addColumnKeyword ++ " " ++ name ++ " " ++ type ++ notNull ps.isNullable
  | .alterColumn => "ALTER COLUMN " ++ name ++ " " ++ type ++ notNull ps.isNullable
  | .renameTable => v.dialect.renameTable ((ps.get? .key).getD "") ((ps.get? .value).getD "")
  | _ => Text.joinWith " " ps.texts

/-- A text with the words that its tag puts in front of it. -/
def taggedText (tag : Tag) (s : String) : String :=
  match tag with
  | .alterTable => "ALTER TABLE " ++ s ++ " "
  | .dropTable => "DROP TABLE " ++ s
  | .dropColumn => "DROP COLUMN " ++ s
  | _ => s

def ColumnDecl.render (v : View) (c : ColumnDecl) : String :=
  if c.autoIncrement then
    c.name ++ " " ++ v.dialect.autoIncrementType c.columnType ++ notNull c.nullable ++ " " ++
      v.dialect.autoIncrementKeyword
  else c.name ++ " " ++ v.dialect.typeKeyword c.columnType ++ notNull c.nullable

/-- The comma behind an item of a table definition, unless it is the last one. -/
def itemSeparator (v : View) (key : Key) : String :=
  if v.lastTableItem = some key then "" else ", "

def Leaf.render (v : View) (head : Head) : Leaf → Reading String
  | .text s => pure (taggedText head.tag s)
  | .late emit => pure (taggedText head.tag (emit v))
  | .field f => pure (f.render v)
  | .parameter p => p.render v
  | .properties ps => pure (ps.render v head.tag)
  | .column c => pure (c.render v ++ itemSeparator v head.key)
  | .tableKey s => pure (s ++ itemSeparator v head.key)

structure Frame where
  opening : String
  closing : String

def Tag.frame? : Tag → Option Frame
  | .select => some ⟨"select ", " "⟩
  | .delete => some ⟨"DELETE ", " "⟩
  | .assignments => some ⟨"SET ", " "⟩
  | .groupBy => some ⟨"GROUP BY ", " "⟩
  | .insertFields => some ⟨"(", ")"⟩
  | .values => some ⟨"VALUES (", ")"⟩
  | _ => none

/-- An empty list keeps its closing bracket but no closing space. -/
def Frame.write (f : Frame) (items : List String) : String :=
  match items with
  | [] => if f.closing = " " then f.opening else f.opening ++ f.closing
  | _ :: _ => f.opening ++ Text.joinWith ", " items ++ f.closing

structure Piece where
  text : String
  isGroup : Bool

def sourceText : Option String → Option String → String
  | some entity, some tableAlias => entity ++ " " ++ tableAlias
  | some entity, none => entity
  | none, _ => ""

def bodyText (pieces : List Piece) : String :=
  Text.joinWith "" ((pieces.filter fun p => !p.isGroup).map Piece.text)

/-- A nested clause stands behind a space, unless it goes on with a comma. -/
def nestedClause (s : String) : String :=
  if s = "" then "" else if s.toList.head? = some ',' then s else " " ++ s

def nestedText (pieces : List Piece) : String :=
  Text.joinWith "" ((pieces.filter Piece.isGroup).map fun p => nestedClause p.text)

def clauseText (tag : Tag) (source body : String) : String :=
  match tag with
  | .fromClause => "FROM " ++ source
  | .join => "JOIN " ++ source ++ " ON " ++ body
  | .leftJoin => "LEFT JOIN " ++ source ++ " ON " ++ body
  | .rightJoin => "RIGHT JOIN " ++ source ++ " ON " ++ body
  | .fullJoin => "FULL JOIN " ++ source ++ " ON " ++ body
  | .whereClause => "WHERE " ++ body
  | .andClause => "AND " ++ body
  | .orClause => "OR " ++ body
  | .having => "HAVING " ++ body
  | .orderBy => "ORDER BY " ++ body ++ " ASC"
  | .orderByDesc => "ORDER BY " ++ body ++ " DESC"
  | .thenBy => ", " ++ body ++ " ASC"
  | .thenByDesc => ", " ++ body ++ " DESC"
  | _ => body

def writeList (frame : Frame) (pieces : List Piece) : String :=
  Text.dropLineBreaks (frame.write ((pieces.map Piece.text).filter fun s => s ≠ ""))

def writeClause (tag : Tag) (entity tableAlias : Option String) (pieces : List Piece) : String :=
  Text.dropLineBreaks
    (clauseText tag (sourceText entity tableAlias) (bodyText pieces) ++ nestedText pieces)

namespace Part

mutual

def render (v : View) : Part → Rendering String
  | .leaf head content => ExceptT.lift (content.render v head)
  | .group head .list children _ =>
    match head.tag.frame? with
    | none => throw (.unknownList head.tag)
    | some frame => do return writeList frame (← renderAll v children)
  | .group head (.clause entity tableAlias) children _ => do
    return writeClause head.tag entity tableAlias (← renderAll v children)

def renderAll (v : View) : List Part → Rendering (List Piece)
  | [] => pure []
  | p :: ps => do
    let s ← p.render v
    let rest ← renderAll v ps
    return ⟨s, p.isGroup⟩ :: rest

end

end Part

end SqlComposer
