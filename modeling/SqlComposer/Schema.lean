import SqlComposer.Tree

/-!
# Entities, table schemas and rows

An entity declares the members that its table has as columns. A schema gives each member a
definition, with the column name it has in a result and whether it belongs to the primary key: a
member is a key member when it is called `Id` or after its entity.
-/
namespace SqlComposer

structure Member where
  name : String
  columnType : ColumnType
  nullable : Bool := false
  deriving DecidableEq, Repr

structure Entity where
  name : String
  members : List Member
  deriving DecidableEq, Repr

structure FieldDef where
  memberName : String
  /-- the column's name in a result: the member's name or an alias -/
  fieldName : String
  entityName : String
  columnType : ColumnType
  nullable : Bool
  isKey : Bool
  converter : Option Converter := none
  /-- the member's place on its entity -/
  ordinal : Nat

def isKeyMember (entity member : String) : Bool :=
  Text.sameName member "id" || Text.sameName member (entity ++ "id")

namespace FieldDef

def ofMember (entity : String) (ordinal : Nat) (m : Member) : FieldDef where
  memberName := m.name
  fieldName := m.name
  entityName := entity
  columnType := m.columnType
  nullable := m.nullable
  isKey := isKeyMember entity m.name
  ordinal := ordinal

def ofMembers (entity : String) : Nat → List Member → List FieldDef
  | _, [] => []
  | n, m :: rest => ofMember entity n m :: ofMembers entity (n + 1) rest

/-- The member's value on an instance, which may be shorter than its entity. -/
def valueOf? (f : FieldDef) (values : List Value) : Option Value :=
  values[f.ordinal]?

end FieldDef

structure Schema where
  name : String
  fields : List FieldDef

namespace Schema

def ofTable (name : String) (members : List Member) : Schema :=
  ⟨name, FieldDef.ofMembers name 0 members⟩

def ofEntity (e : Entity) : Schema :=
  ofTable e.name e.members

def field? (s : Schema) (member : String) : Option FieldDef :=
  s.fields.find? fun f => f.memberName == member

def keys (s : Schema) : List FieldDef :=
  s.fields.filter FieldDef.isKey

/-- The fields of a projection, with key and nullability from the entity's member of that name. -/
def projected (entity projection : Schema) : List FieldDef :=
  projection.fields.map fun f =>
    match entity.field? f.memberName with
    | some source =>
      { f with
        nullable := source.nullable
        isKey := source.isKey
        entityName := source.entityName }
    | none => f

end Schema

/-- The schemas asked for so far, each built once. -/
structure Catalog where
  entries : List (Entity × Schema)

namespace Catalog

def empty : Catalog := ⟨[]⟩

def fields (c : Catalog) (e : Entity) : List FieldDef × Catalog :=
  match c.entries.lookup e with
  | some s => (s.fields, c)
  | none =>
    let s := Schema.ofEntity e
    (s.fields, ⟨c.entries ++ [(e, s)]⟩)

def projected (c : Catalog) (entity projection : Entity) : List FieldDef × Catalog :=
  let (_, c) := c.fields entity
  let (_, c) := c.fields projection
  ((Schema.ofEntity entity).projected (Schema.ofEntity projection), c)

def size (c : Catalog) : Nat :=
  c.entries.length

end Catalog

namespace FieldDef

/-- Take over what a column of a statement says: its type, its converter and its name in the
result, each if it is given. -/
def matched (f : FieldDef) (r : ColumnRef) (id : String) : FieldDef :=
  { f with
    columnType := r.columnType.getD f.columnType
    converter := r.converter <|> f.converter
    fieldName := id }

/-- Change the first definition that has the result name or belongs to the column. -/
def matchFirst (r : ColumnRef) (id : String) : List FieldDef → List FieldDef
  | [] => []
  | f :: rest =>
    if f.fieldName == id || f.memberName == r.field then f.matched r id :: rest
    else f :: matchFirst r id rest

def matchPart (fields : List FieldDef) (p : Part) : List FieldDef :=
  match p.field?, p.id? with
  | some r, some id => matchFirst r id fields
  | _, _ => fields

/-- Go through all columns of a statement in order. -/
def matchTree (fields : List FieldDef) (t : Tree) : List FieldDef :=
  t.flatten.foldl matchPart fields

end FieldDef

/-! ### Rows -/

/-- A row pairs column names with values, in the order of the select list. -/
structure Row where
  columns : List (String × Value)

namespace Row

def get? (r : Row) (column : String) : Option Value :=
  (r.columns.find? fun c => Text.sameName c.1 column).map Prod.snd

def size (r : Row) : Nat := r.columns.length

def converter? (fields : List FieldDef) (column : String) : Option Converter :=
  (fields.find? fun f => Text.sameName f.fieldName column).bind FieldDef.converter

/-- Apply to every value the converter of the field with that column name. -/
def convert (fields : List FieldDef) (r : Row) : Row :=
  ⟨r.columns.map fun (name, v) =>
    match converter? fields name with
    | some c => (name, c.apply v)
    | none => (name, v)⟩

end Row

/-! ### Keys

A row is found again by the key members of an instance, which are given or follow from the schema.
-/

namespace Key

def members (s : Schema) (explicit : Option String) : List String :=
  match explicit with
  | some key => [key]
  | none => s.keys.map FieldDef.memberName

/-- The comparison of one member with its value on the instance; a missing value is `NULL`. -/
def comparison (s : Schema) (values : List Value) (member : String) : Except Fault Expr :=
  match s.field? member with
  | none => .error (.missingArgument "key" ("'" ++ member ++ "' is not a member of " ++ s.name))
  | some f => .ok ((Expr.col member).equals (.constant ((f.valueOf? values).getD .null)))

/-- The comparisons of all key members, joined with `AND`. -/
def predicate (s : Schema) (values : List Value) (explicit : Option String) :
    Except Fault Expr := do
  match ← (members s explicit).mapM (comparison s values) with
  | [] => .error (.noPrimaryKey s.name)
  | first :: rest => .ok (rest.foldl Expr.conj first)

end Key

end SqlComposer
