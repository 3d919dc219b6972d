import SqlComposer.Proofs.Expr.Operand
import SqlComposer.Proofs.Value.Literal

/-!
# Expressions with other strings

Other strings in place of the strings of an expression change its atoms and nothing else:
arithmetic is over numbers, and what a comparison of strings says never becomes a literal.
-/
namespace SqlComposer

variable (f : String → String)

def Deferred.mapString (d : Deferred) : Deferred :=
  { d with result := d.result.mapString f }

def Expr.mapStrings : Expr → Expr
  | .member entity tableAlias field => .member entity tableAlias field
  | .constant v => .constant (v.mapString f)
  | .deferred d => .deferred (d.mapString f)
  | .binary op left right => .binary op left.mapStrings right.mapStrings
  | .convert inner => .convert inner.mapStrings
  | .computed description d => .computed description (d.mapString f)

def Atom.mapString : Atom → Atom
  | .text s => .text s
  | .field g => .field g
  | .value v => .value (v.mapString f)
  | .deferred d => .deferred (d.mapString f)

namespace Value

/-- A value up to what a string says and which truth value it is. -/
def rough : Value → Value
  | .string _ => .string ""
  | .bool _ => .bool false
  | v => v

theorem rough_mapString (v : Value) : (v.mapString f).rough = v.rough := by
  cases v <;> rfl

end Value

namespace BinaryOp

theorem arithmetic?_rough (op : BinaryOp) (a b : Value) :
    op.arithmetic? a.rough b.rough = op.arithmetic? a b := by
  cases a <;> cases b <;> rfl

theorem logical?_rough (op : BinaryOp) (a b : Value) :
    (op.logical? a.rough b.rough).map Value.rough = (op.logical? a b).map Value.rough := by
  cases a with
  | bool =>
    cases b with
    | bool => cases op <;> rfl
    | _ => rfl
  | _ => rfl

theorem result?_rough (op : BinaryOp) (a b : Value) :
    (op.result? a.rough b.rough).map Value.rough = (op.result? a b).map Value.rough := by
  cases op with
  | add | subtract | multiply | divide => exact congrArg _ (arithmetic?_rough _ a b)
  | and => exact logical?_rough .and a b
  | or => exact logical?_rough .or a b
  | equal | notEqual | greater | greaterOrEqual | less | lessOrEqual => rfl

end BinaryOp

namespace Expr

theorem bind_rough {x x' y y' : Option Value} (hx : x'.map Value.rough = x.map Value.rough)
    (hy : y'.map Value.rough = y.map Value.rough) {g : Value → Value → Option Value}
    {h : Value → Value} (hg : ∀ a b, (g a.rough b.rough).map h = (g a b).map h) :
    (x'.bind fun a => y'.bind (g a)).map h = (x.bind fun a => y.bind (g a)).map h := by
  have hrough (x y : Option Value) : (x.bind fun a => y.bind (g a)).map h =
      (x.map Value.rough).bind fun a => ((y.map Value.rough).bind fun b => (g a b).map h) := by
    cases x <;> cases y <;> simp [hg]
  rw [hrough, hrough, hx, hy]

theorem rough_evaluate (e : Expr) :
    (e.mapStrings f).evaluate.value.map Value.rough = e.evaluate.value.map Value.rough := by
  induction e with
  | member => rfl
  | constant | deferred | computed => exact congrArg some (Value.rough_mapString f _)
  | convert inner ih => exact ih
  | binary op left right ihl ihr =>
    rw [mapStrings, evaluate_binary, evaluate_binary]
    exact bind_rough ihl ihr op.result?_rough

/-- Arithmetic has the same value whatever the strings say. -/
theorem evaluate_arithmetic {op : BinaryOp} (hop : op.isArithmetic = true) (left right : Expr) :
    ((Expr.binary op left right).mapStrings f).evaluate.value =
      (Expr.binary op left right).evaluate.value := by
  rw [mapStrings, evaluate_binary, evaluate_binary]
  have h := bind_rough (rough_evaluate f left) (rough_evaluate f right) (g := op.result?) (h := id)
    fun a b => by
      rw [BinaryOp.result?_of_isArithmetic hop, BinaryOp.result?_of_isArithmetic hop,
        BinaryOp.arithmetic?_rough]
  simpa only [Option.map_id_fun, id_eq] using h

theorem isNullConstant_mapStrings (e : Expr) :
    (e.mapStrings f).isNullConstant = e.isNullConstant := by
  cases e with
  | constant v => cases v <;> rfl
  | member | deferred | binary | convert | computed => rfl

end Expr

namespace Scope

variable (scope : Scope)

theorem field?_mapStrings (e : Expr) : scope.field? (e.mapStrings f) = scope.field? e := by
  induction e with
  | convert inner ih => exact ih
  | member | constant | deferred | binary | computed => rfl

theorem verbatim_mapStrings (e : Expr) :
    (scope.verbatim (e.mapStrings f)).value =
      (scope.verbatim e).value.map (Atom.mapString f) := by
  induction e with
  | member | constant | deferred | computed => rfl
  | convert inner ih => exact ih
  | binary op left right ihl ihr =>
    simp only [Expr.mapStrings, verbatim, Reading.value_bind, Reading.value_pure, ihl, ihr,
      List.map_append, List.map_cons, List.map_nil]
    rfl

theorem nullTest?_mapStrings (op : BinaryOp) (left right : Expr) :
    nullTest? op (left.mapStrings f) (right.mapStrings f) = nullTest? op left right := by
  rw [nullTest?, nullTest?, Expr.isNullConstant_mapStrings, Expr.isNullConstant_mapStrings]

theorem atoms_mapStrings (e : Expr) :
    (scope.atoms (e.mapStrings f)).value = (scope.atoms e).value.map (Atom.mapString f) := by
  induction e with
  | member | constant | deferred | computed => rfl
  | convert inner ih => exact ih
  | binary op left right ihl ihr =>
    simp only [Expr.mapStrings, atoms, BinaryOp.keyword?_eq]
    by_cases hop : op.isArithmetic = true
    · simp only [hop, if_true, literal_value]
      have hvalue := Expr.evaluate_arithmetic f hop left right
      rw [Expr.mapStrings] at hvalue
      rw [hvalue]
      cases h : (Expr.binary op left right).evaluate.value with
      | none => exact scope.verbatim_mapStrings f (.binary op left right)
      | some v =>
        obtain ⟨n, rfl⟩ | ⟨x, rfl⟩ := Expr.evaluate_arithmetic_eq_some hop h <;> rfl
    · simp only [hop, Bool.false_eq_true, if_false, nullTest?_mapStrings]
      cases nullTest? op left right with
      | none =>
        simp only [Reading.value_bind, Reading.value_pure, ihl, ihr, List.map_append,
          List.map_cons, List.map_nil]
        rfl
      | some test =>
        obtain ⟨test, _ | _⟩ := test
        · simp only [Reading.value_bind, Reading.value_pure, ihr, List.map_append, List.map_cons,
            List.map_nil]
          rfl
        · simp only [Reading.value_bind, Reading.value_pure, ihl, List.map_append, List.map_cons,
            List.map_nil]
          rfl

end Scope

end SqlComposer
