import SqlComposer.Tree

/-!
# Drafts

A tree together with the supply of keys for the parts that are still to come. Every new part takes
the next key, a clause before its children.
-/
namespace SqlComposer

structure Draft extends Tree where
  nextKey : Key := 1

namespace Draft

def empty : Draft := {}

def procedure (name : String) : Draft := { shape := .procedure name }

def spend (d : Draft) (n : Nat) (t : Tree) : Draft :=
  { t with nextKey := d.nextKey + n }

def addText (d : Draft) (tag : Tag) (s : String) : Draft :=
  d.spend 1 (d.add (.text d.nextKey tag s))

def addList (d : Draft) (tag : Tag) : Draft :=
  d.spend 1 (d.add (.list d.nextKey tag))

/-- A clause over a table, ahead of the first top-level part that satisfies `before`. An alias is
entered into the alias table. -/
def insertSource (d : Draft) (tag : Tag) (entity : String) (tableAlias : Option String)
    (before : Part → Bool) : Draft :=
  let named :=
    match tableAlias with
    | some a => d.setAlias entity a
    | none => d.toTree
  d.spend 1 (named.addAheadOf (.clause d.nextKey tag (some entity) tableAlias) before)

def addSource (d : Draft) (tag : Tag) (entity : String) (tableAlias : Option String) : Draft :=
  d.insertSource tag entity tableAlias fun _ => false

/-- A clause around the atoms of an expression, and how many keys it takes. -/
def expressionClause (d : Draft) (scope : Scope) (e : Expr) (tag : Tag) :
    Reading (Part × Nat) := do
  let atoms ← scope.atoms e
  return (.clause d.nextKey tag none none (Part.ofAtoms (d.nextKey + 1) atoms), atoms.length + 1)

def addExpression (d : Draft) (scope : Scope) (e : Expr) (tag : Tag) : Reading Draft := do
  let (clause, n) ← d.expressionClause scope e tag
  return d.spend n (d.add clause)

def nestExpression (d : Draft) (scope : Scope) (e : Expr) (tag : Tag) (anchor : Part → Bool) :
    Reading Draft := do
  let (clause, n) ← d.expressionClause scope e tag
  return d.spend n (d.addToLastWhere clause anchor)

/-- Start the restriction ahead of the first part that satisfies `before`. A statement that has
one already gets the expression with `AND` onto it. -/
def addRestriction (d : Draft) (scope : Scope) (e : Expr) (before : Part → Bool) :
    Reading Draft := do
  if d.contains .whereClause then
    d.nestExpression scope e .andClause fun p => p.tag == .whereClause
  else
    let (clause, n) ← d.expressionClause scope e .whereClause
    return d.spend n (d.addAheadOf clause before)

/-- Put the atoms of an expression straight into the group with the key. -/
def extendClause (d : Draft) (clause : Key) (scope : Scope) (e : Expr) : Reading Draft := do
  match d.find? clause with
  | some (.group ..) =>
    let atoms ← scope.atoms e
    let children := Part.ofAtoms d.nextKey atoms
    return d.spend atoms.length
      (d.update clause fun g => children.foldl (fun g child => Part.push child g) g)
  | _ => return d

/-- A column for the last select list, which a closed list drops. -/
def addField (d : Draft) (f : ColumnRef) : Draft :=
  d.spend 1 (d.addToLast (.field d.nextKey f) .select)

/-- Whether a child of a select list stands for a requested column, by name or result alias. -/
def covers (requested : ColumnRef) (child : Part) : Bool :=
  match child.field? with
  | some f => f.field == requested.field || f.resultAlias == some requested.field
  | none => false

/-- A select list while the columns it has to hold are gone through: its children, the keys of
those that nobody has asked for yet, and the next key. -/
structure Supply where
  children : List Part
  unused : List Key
  nextKey : Key

def Supply.start (children : List Part) (nextKey : Key) : Supply :=
  ⟨children, (children.filter fun p => p.field?.isSome).map Part.key, nextKey⟩

def Supply.request (s : Supply) (f : ColumnRef) : Supply :=
  let mapped := (s.children.filter (covers f)).map Part.key
  if mapped = [] then ⟨s.children ++ [.field s.nextKey f], s.unused, s.nextKey + 1⟩
  else { s with unused := s.unused.filter fun k => !mapped.contains k }

def dropKey (children : List Part) (key : Key) : List Part :=
  match Part.take? key children with
  | some (_, rest) => rest
  | none => children

/-- The children of a select list that holds the requested columns: what is there already stays
as it is, what is missing comes behind, and columns that were not asked for go. -/
def supplied (children : List Part) (nextKey : Key) (fields : List ColumnRef) :
    List Part × Key :=
  let s := fields.foldl Supply.request (Supply.start children nextKey)
  (s.unused.foldl dropKey s.children, s.nextKey)

def supplyAll (fields : List ColumnRef) : List Part → Key → List Part × Key
  | [], key => ([], key)
  | p :: ps, key =>
    match p with
    | .group h shape cs false =>
      if h.tag = .select then
        let (cs', key') := supplied cs key fields
        let (rest, last) := supplyAll fields ps key'
        (.group h shape cs' false :: rest, last)
      else
        let (rest, last) := supplyAll fields ps key
        (p :: rest, last)
    | _ =>
      let (rest, last) := supplyAll fields ps key
      (p :: rest, last)

/-- Make every top-level select list that is not closed hold the requested columns. -/
def supplyFields (d : Draft) (fields : List ColumnRef) : Draft :=
  let (parts, key) := supplyAll fields d.parts d.nextKey
  { d with parts, nextKey := key }

def closeSelect (d : Draft) : Draft :=
  { d with parts := d.parts.map fun p => if p.tag == .select then p.close else p }

end Draft

end SqlComposer
