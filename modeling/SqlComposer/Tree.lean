import SqlComposer.Part

/-!
# The tree of a statement

The top-level parts of a statement in order, with the aliases of its entities. Parts are put in
beside parts that are there already and never re-sorted; an insertion whose anchor is missing goes
to the start or to the end instead of failing.
-/
namespace SqlComposer

inductive StatementKind where
  | statement
  | procedure (name : String)
  deriving DecidableEq, Repr

structure Tree where
  parts : List Part := []
  aliases : AliasTable := []
  shape : StatementKind := .statement

/-- Insert ahead of the first element that satisfies `p`, or at the end. -/
def insertAhead {α : Type} (p : α → Bool) (a : α) : List α → List α
  | [] => [a]
  | b :: bs => if p b then a :: b :: bs else b :: insertAhead p a bs

/-- Insert behind the last element that satisfies `p`, or at the end. -/
def insertBehind {α : Type} (p : α → Bool) (a : α) : List α → List α
  | [] => [a]
  | b :: bs => if p b && !bs.any p then b :: a :: bs else b :: insertBehind p a bs

namespace Part

/-- Append a child to a group; a closed group drops it. -/
def push (child : Part) : Part → Part
  | .leaf h content => .leaf h content
  | .group h shape cs true => .group h shape cs true
  | .group h shape cs false => .group h shape (cs ++ [child]) false

def close : Part → Part
  | .leaf h content => .leaf h content
  | .group h shape cs _ => .group h shape cs true

mutual

/-- Change the part that has the key, wherever it is nested. -/
def update (key : Key) (f : Part → Part) : Part → Part
  | .leaf h content => if h.key = key then f (.leaf h content) else .leaf h content
  | .group h shape cs c =>
    if h.key = key then f (.group h shape cs c) else .group h shape (updateAll key f cs) c

def updateAll (key : Key) (f : Part → Part) : List Part → List Part
  | [] => []
  | p :: ps => p.update key f :: updateAll key f ps

end

/-- Take the part with the key out of a list, without looking into groups. -/
def takeDirect? (key : Key) : List Part → Option (Part × List Part)
  | [] => none
  | p :: ps =>
    if p.key = key then some (p, ps)
    else (takeDirect? key ps).map fun (q, rest) => (q, p :: rest)

mutual

/-- Take the part with the key out of a group: a child, or else a part below a child. -/
def takeBelow? (key : Key) : Part → Option (Part × Part)
  | .leaf .. => none
  | .group h shape cs c =>
    match takeDirect? key cs with
    | some (q, rest) => some (q, .group h shape rest c)
    | none => (takeNested? key cs).map fun (q, rest) => (q, .group h shape rest c)

def takeNested? (key : Key) : List Part → Option (Part × List Part)
  | [] => none
  | p :: ps =>
    match takeBelow? key p with
    | some (q, p') => some (q, p' :: ps)
    | none => (takeNested? key ps).map fun (q, rest) => (q, p :: rest)

end

/-- Take the part with the key out of a list or out of any group in it. -/
def take? (key : Key) (ps : List Part) : Option (Part × List Part) :=
  takeDirect? key ps <|> takeNested? key ps

end Part

namespace Tree

def flatten (t : Tree) : List Part :=
  Part.flattenAll t.parts

def find? (t : Tree) (key : Key) : Option Part :=
  t.flatten.find? fun p => p.key == key

def contains (t : Tree) (tag : Tag) : Bool :=
  t.parts.any fun p => p.tag == tag

def partsOf (t : Tree) (tag : Tag) : List Part :=
  t.parts.filter fun p => p.tag == tag

def aliasFor? (t : Tree) (entity : String) : Option String :=
  t.aliases.find? entity

def setAlias (t : Tree) (entity tableAlias : String) : Tree :=
  { t with aliases := t.aliases.set entity tableAlias }

def add (t : Tree) (p : Part) : Tree :=
  { t with parts := t.parts ++ [p] }

/-- Ahead of the first part with the tag, or at the start. -/
def addBefore (t : Tree) (p : Part) (tag : Tag) : Tree :=
  if t.contains tag then { t with parts := insertAhead (fun q => q.tag == tag) p t.parts }
  else { t with parts := p :: t.parts }

/-- Ahead of the first top-level part that satisfies the predicate, or at the end. -/
def addAheadOf (t : Tree) (p : Part) (anchor : Part → Bool) : Tree :=
  { t with parts := insertAhead anchor p t.parts }

/-- Behind the last part with the tag, or at the end. -/
def addAfter (t : Tree) (p : Part) (tag : Tag) : Tree :=
  { t with parts := insertBehind (fun q => q.tag == tag) p t.parts }

def lastGroup? (t : Tree) (anchor : Part → Bool) : Option Part :=
  (t.flatten.filter fun p => p.isGroup && anchor p).getLast?

/-- As the last child of the last group that satisfies the predicate, however deep it is nested.
A closed group drops the part; without such a group the part goes to the end. -/
def addToLastWhere (t : Tree) (p : Part) (anchor : Part → Bool) : Tree :=
  match t.lastGroup? anchor with
  | some g => { t with parts := Part.updateAll g.key (Part.push p) t.parts }
  | none => t.add p

def addToLast (t : Tree) (p : Part) (tag : Tag) : Tree :=
  t.addToLastWhere p fun q => q.tag == tag

def update (t : Tree) (key : Key) (f : Part → Part) : Tree :=
  { t with parts := Part.updateAll key f t.parts }

def closeTagged (t : Tree) (tag : Tag) : Tree :=
  { t with parts := t.parts.map fun p => if p.tag = tag then p.close else p }

/-- Take a part out with its whole subtree. -/
def remove? (t : Tree) (key : Key) : Option (Part × Tree) :=
  (Part.take? key t.parts).map fun (p, rest) => (p, { t with parts := rest })

def view (t : Tree) (dialect : Dialect) (qualify : Bool) : View where
  dialect := dialect
  qualify := qualify
  aliases := t.aliases
  tags := t.parts.map Part.tag
  allTags := t.flatten.map Part.tag
  lastTableItem := ((t.flatten.filter fun p => p.tag.isTableItem).getLast?).map Part.key

end Tree

end SqlComposer
