import SqlComposer.Expr

/-!
# Evaluation

Columns have no value here, so an expression with a column in it has none either. The left operand
is evaluated first, and the right one only if the left has a value.
-/
namespace SqlComposer

namespace BinaryOp

/-- Arithmetic on integers, before the range of the result is looked at. -/
def onInts? (op : BinaryOp) (a b : Int) : Option Int :=
  match op with
  | .add => some (a + b)
  | .subtract => some (a - b)
  | .multiply => some (a * b)
  | .divide => if b = 0 then none else some (a.tdiv b)
  | _ => none

def onFloats? (op : BinaryOp) (a b : Float) : Option Float :=
  match op with
  | .add => some (a + b)
  | .subtract => some (a - b)
  | .multiply => some (a * b)
  | .divide => some (a / b)
  | _ => none

def isArithmetic : BinaryOp → Bool
  | .add | .subtract | .multiply | .divide => true
  | _ => false

end BinaryOp

def Value.float? : Value → Option Float
  | .int n => some n.toFloat
  | .float x => some x
  | _ => none

namespace BinaryOp

/-- Two integers stay integers; a number beside a double is taken as a double. -/
def arithmetic? (op : BinaryOp) : Value → Value → Option Value
  | .int a, .int b => (op.onInts? a.toInt b.toInt).bind Value.ofInt?
  | a, b => do
    let x ← a.float?
    let y ← b.float?
    return .float (← op.onFloats? x y)

def logical? (op : BinaryOp) : Value → Value → Option Value
  | .bool a, .bool b =>
    match op with
    | .and => some (.bool (a && b))
    | .or => some (.bool (a || b))
    | _ => none
  | _, _ => none

def result? (op : BinaryOp) (a b : Value) : Option Value :=
  match op with
  | .add | .subtract | .multiply | .divide => op.arithmetic? a b
  | .equal => some (.bool (a.same b))
  | .notEqual => some (.bool !(a.same b))
  | .and | .or => op.logical? a b
  | .greater | .greaterOrEqual | .less | .lessOrEqual => none

end BinaryOp

def Expr.evaluate : Expr → Reading (Option Value)
  | .member .. => pure none
  | .constant v => pure (some v)
  | .deferred d => return some (← d.read)
  | .computed _ d => return some (← d.read)
  | .convert inner => inner.evaluate
  | .binary op left right => do
    match ← left.evaluate with
    | none => pure none
    | some a =>
      match ← right.evaluate with
      | none => pure none
      | some b => pure (op.result? a b)

end SqlComposer
