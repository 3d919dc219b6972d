import SqlComposer.Expr.Evaluate
import SqlComposer.ColumnRef

/-!
# Atoms of an expression

An expression is written as a sequence of atoms: columns, values, and text for brackets,
operators and null tests. Predicates are bracketed. Arithmetic and computations that cannot be
looked into are evaluated to one literal where possible; arithmetic over columns is written
operator by operator.
-/
namespace SqlComposer

inductive Atom where
  | text (s : String)
  | field (f : ColumnRef)
  | value (v : Value)
  | deferred (d : Deferred)

namespace Atom

def render (v : View) : Atom → Reading String
  | .text s => pure s
  | .field f => pure (f.render v)
  | .value x => pure (v.dialect.written x none)
  | .deferred d => return v.dialect.written (← d.read) none

end Atom

def renderAtoms (v : View) : List Atom → Reading String
  | [] => pure ""
  | a :: rest => do
    let s ← a.render v
    let more ← renderAtoms v rest
    return s ++ more

/-- Columns without a table of their own belong to this entity, under this alias if it has one. -/
structure Scope where
  entity : Option String := none
  tableAlias : Option String := none

namespace Scope

/-- A column under the table it names, or else under the scope's own. -/
def columnRef (scope : Scope) (entity tableAlias : Option String) (field : String) : ColumnRef :=
  match tableAlias, entity with
  | some a, _ => { field, tableAlias := some a }
  | none, some e => { field, entity := some e }
  | none, none => { field, entity := scope.entity, tableAlias := scope.tableAlias }

/-- The column that a bare or converted column expression selects. -/
def field? (scope : Scope) : Expr → Option ColumnRef
  | .member entity tableAlias field => some (scope.columnRef entity tableAlias field)
  | .convert inner => scope.field? inner
  | _ => none

/-- Write an expression operator by operator, with nothing evaluated but what cannot be looked
into. -/
def verbatim (scope : Scope) : Expr → Reading (List Atom)
  | .member entity tableAlias field => pure [.field (scope.columnRef entity tableAlias field)]
  | .constant v => pure [.value v]
  | .deferred d => pure [.deferred d]
  | .computed _ d => return [.value (← d.read)]
  | .convert inner => scope.verbatim inner
  | .binary op left right => do
    let l ← scope.verbatim left
    let r ← scope.verbatim right
    return .text "(" :: l ++ .text (" " ++ op.symbol ++ " ") :: r ++ [.text ")"]

/-- One literal for the whole expression, or else the expression verbatim. -/
def literal (scope : Scope) (e : Expr) : Reading (List Atom) := do
  match ← e.evaluate with
  | some v => pure [.value v]
  | none => scope.verbatim e

/-- The test that replaces a comparison, and the operand it tests. -/
def nullTest? (op : BinaryOp) (left right : Expr) : Option (String × Bool) :=
  op.nullTest?.bind fun test =>
    if right.isNullConstant then some (test, true)
    else if left.isNullConstant then some (test, false)
    else none

def atoms (scope : Scope) : Expr → Reading (List Atom)
  | .member entity tableAlias field => pure [.field (scope.columnRef entity tableAlias field)]
  | .constant v => pure [.value v]
  | .deferred d => pure [.deferred d]
  | .computed description d => scope.literal (.computed description d)
  | .convert inner => scope.atoms inner
  | .binary op left right =>
    match op.keyword? with
    | none => scope.literal (.binary op left right)
    | some keyword =>
      match nullTest? op left right with
      | some (test, true) => do
        let l ← scope.atoms left
        return .text "(" :: l ++ [.text test, .text ")"]
      | some (test, false) => do
        let r ← scope.atoms right
        return .text "(" :: r ++ [.text test, .text ")"]
      | none => do
        let l ← scope.atoms left
        let r ← scope.atoms right
        return .text "(" :: l ++ .text (" " ++ keyword ++ " ") :: r ++ [.text ")"]

end Scope

end SqlComposer
