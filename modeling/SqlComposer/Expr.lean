import SqlComposer.Value.Deferred

/-!
# Expressions

Predicates and projections as trees over columns and values. An expression can be shown as text
and, where no column is involved, evaluated without a database. Integer arithmetic is exact: a
result outside 64 bits or a division by zero has no value.
-/
namespace SqlComposer

inductive BinaryOp where
  | equal
  | notEqual
  | and
  | or
  | greater
  | greaterOrEqual
  | less
  | lessOrEqual
  | add
  | subtract
  | multiply
  | divide
  deriving DecidableEq, Repr

namespace BinaryOp

/-- The word of an operator that a predicate may use; arithmetic has none. -/
def keyword? : BinaryOp → Option String
  | .equal => some "="
  | .notEqual => some "<>"
  | .and => some "AND"
  | .or => some "OR"
  | .greater => some ">"
  | .greaterOrEqual => some ">="
  | .less => some "<"
  | .lessOrEqual => some "<="
  | .add | .subtract | .multiply | .divide => none

def symbol : BinaryOp → String
  | .add => "+"
  | .subtract => "-"
  | .multiply => "*"
  | .divide => "/"
  | op => op.keyword?.getD ""

def all : List BinaryOp :=
  [.equal, .notEqual, .and, .or, .greater, .greaterOrEqual, .less, .lessOrEqual, .add, .subtract,
   .multiply, .divide]

def ofSymbol? (s : String) : Option BinaryOp :=
  all.find? fun op => op.symbol == s

/-- The test that stands for a comparison with `NULL`. -/
def nullTest? : BinaryOp → Option String
  | .equal => some " IS NULL"
  | .notEqual => some " IS NOT NULL"
  | _ => none

end BinaryOp

inductive Expr where
  /-- a column of an entity or of one of its aliases; the alias wins -/
  | member (entity tableAlias : Option String) (field : String)
  | constant (v : Value)
  | deferred (d : Deferred)
  | binary (op : BinaryOp) (left right : Expr)
  /-- a change of type, which leaves no trace in a statement -/
  | convert (inner : Expr)
  /-- a computation that cannot be looked into -/
  | computed (description : String) (d : Deferred)

namespace Expr

def col (field : String) : Expr :=
  .member none none field

def qualified (entity field : String) : Expr :=
  .member (some entity) none field

def qualifiedAs (tableAlias field : String) : Expr :=
  .member none (some tableAlias) field

def equals (left right : Expr) : Expr :=
  .binary .equal left right

def conj (left right : Expr) : Expr :=
  .binary .and left right

/-- The column that a bare or converted column expression stands for. -/
def member? : Expr → Option (Option String × String)
  | .member entity _ field => some (entity, field)
  | .convert inner => inner.member?
  | _ => none

def isNullConstant : Expr → Bool
  | .constant .null => true
  | _ => false

def shown : Expr → Reading String
  | .member _ (some a) field => pure (a ++ "." ++ field)
  | .member (some entity) none field => pure (entity ++ "." ++ field)
  | .member none none field => pure field
  | .constant v => pure v.text
  | .deferred d => return (← d.read).text
  | .binary op left right => do
    let l ← left.shown
    let r ← right.shown
    return "(" ++ l ++ " " ++ op.symbol ++ " " ++ r ++ ")"
  | .convert inner => inner.shown
  | .computed description _ => pure description

end Expr

end SqlComposer
