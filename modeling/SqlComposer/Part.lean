import SqlComposer.Expr.Atoms
import SqlComposer.Fault

/-!
# Parts of a statement

A statement is a forest of parts. A leaf is written by itself; a group owns ordered children and
is written either as a list with separators or as a clause. A closed group takes no more children.
-/
namespace SqlComposer

inductive ParameterSource where
  | value (v : Value)
  | deferred (d : Deferred)
  | expr (e : Expr)

/-- A bound value, written as `name=value` if it has a name. -/
structure Parameter where
  source : ParameterSource
  name : Option String := none
  declared : Option ColumnType := none

inductive Property where
  | memberName
  | memberType
  | nullable
  | key
  | value
  deriving DecidableEq, Repr

/-- Properties of one clause in the order in which they were first set. -/
structure Properties where
  entries : List (Property × Option String)
  deriving DecidableEq, Repr

namespace Properties

def empty : Properties := ⟨[]⟩

def replaced (p : Property) (text : Option String) :
    List (Property × Option String) → List (Property × Option String)
  | [] => [(p, text)]
  | (q, old) :: rest => if q = p then (q, text) :: rest else (q, old) :: replaced p text rest

/-- A property that is set already keeps its place. -/
def set (ps : Properties) (p : Property) (text : Option String) : Properties :=
  ⟨replaced p text ps.entries⟩

def get? (ps : Properties) (p : Property) : Option String :=
  (ps.entries.lookup p).bind id

def texts (ps : Properties) : List String :=
  ps.entries.filterMap fun entry => entry.2

/-- Nullable unless the property says `false`, in any case. -/
def isNullable (ps : Properties) : Bool :=
  match ps.get? .nullable with
  | some text => !Text.sameName text "false"
  | none => true

end Properties

structure ColumnDecl where
  name : String
  columnType : ColumnType
  nullable : Bool := true
  autoIncrement : Bool := false
  deriving DecidableEq, Repr

inductive Leaf where
  | text (s : String)
  /-- text that is made when the statement is written -/
  | late (emit : View → String)
  | field (f : ColumnRef)
  | parameter (p : Parameter)
  | properties (ps : Properties)
  | column (c : ColumnDecl)
  | tableKey (s : String)

inductive Shape where
  /-- a comma-separated list behind an opening word -/
  | list
  /-- a keyword clause, over a table in a `FROM` or a join -/
  | clause (entity tableAlias : Option String)
  deriving DecidableEq, Repr

structure Head where
  key : Key
  tag : Tag
  /-- the name a part is looked up by: a column, a parameter, an entity -/
  id : Option String := none
  deriving DecidableEq, Repr

inductive Part where
  | leaf (head : Head) (content : Leaf)
  | group (head : Head) (shape : Shape) (children : List Part) (isClosed : Bool)

namespace Part

def head : Part → Head
  | .leaf h _ => h
  | .group h _ _ _ => h

def key (p : Part) : Key := p.head.key

def tag (p : Part) : Tag := p.head.tag

def id? (p : Part) : Option String := p.head.id

def isGroup : Part → Bool
  | .leaf .. => false
  | .group .. => true

def isClosed : Part → Bool
  | .leaf .. => false
  | .group _ _ _ c => c

def children : Part → List Part
  | .leaf .. => []
  | .group _ _ cs _ => cs

def field? : Part → Option ColumnRef
  | .leaf _ (.field f) => some f
  | _ => none

def fields (p : Part) : List ColumnRef :=
  p.children.filterMap field?

def aliasFields (field resultAlias : String) : Part → Part
  | .leaf h content => .leaf h content
  | .group h shape cs c => .group h shape (cs.map rename) c
where
  rename : Part → Part
    | .leaf h (.field f) =>
      .leaf h (.field (if f.field = field then { f with resultAlias := some resultAlias } else f))
    | p => p

def isParameter : Part → Bool
  | .leaf _ (.parameter _) => true
  | _ => false

def withId (name : String) : Part → Part
  | .leaf h content => .leaf { h with id := some name } content
  | .group h shape cs c => .group { h with id := some name } shape cs c

def text (key : Key) (tag : Tag) (s : String) : Part :=
  .leaf { key, tag } (.text s)

def late (key : Key) (tag : Tag) (emit : View → String) : Part :=
  .leaf { key, tag } (.late emit)

/-- A column is known by its name in the result. -/
def field (key : Key) (f : ColumnRef) : Part :=
  .leaf { key, tag := .item, id := some f.resultName } (.field f)

def parameter (key : Key) (tag : Tag) (p : Parameter) : Part :=
  .leaf { key, tag, id := p.name } (.parameter p)

def properties (key : Key) (tag : Tag) (ps : Properties) : Part :=
  .leaf { key, tag } (.properties ps)

def column (key : Key) (c : ColumnDecl) : Part :=
  .leaf { key, tag := .column, id := some c.name } (.column c)

def tableKey (key : Key) (name s : String) : Part :=
  .leaf { key, tag := .tableKey, id := some name } (.tableKey s)

def list (key : Key) (tag : Tag) (children : List Part := []) : Part :=
  .group { key, tag } .list children false

/-- A clause over a table is known by the entity's name. -/
def clause (key : Key) (tag : Tag) (entity tableAlias : Option String)
    (children : List Part := []) : Part :=
  .group { key, tag, id := entity } (.clause entity tableAlias) children false

def ofAtom (key : Key) : Atom → Part
  | .text s => text key .plain s
  | .field f => field key f
  | .value v => parameter key .plain { source := .value v }
  | .deferred d => parameter key .plain { source := .deferred d }

def ofAtoms : Key → List Atom → List Part
  | _, [] => []
  | key, a :: rest => ofAtom key a :: ofAtoms (key + 1) rest

mutual

def flatten : Part → List Part
  | .leaf h content => [.leaf h content]
  | .group h shape cs c => .group h shape cs c :: flattenAll cs

def flattenAll : List Part → List Part
  | [] => []
  | p :: ps => p.flatten ++ flattenAll ps

end

end Part

end SqlComposer
