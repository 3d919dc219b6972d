import SqlComposer.Proofs.Expr.Written

/-!
# Integer arithmetic

An expression over integers has a value in ℤ, whatever its size. It is folded to that value where
64 bits hold it together with the value of every expression in it, and nothing is divided by zero.
Otherwise it has no value and is written operator by operator.
-/
namespace SqlComposer

/-- What 64 bits hold: the integers from `-2 ^ 63` to `2 ^ 63 - 1`. -/
def InRange (n : Int) : Prop :=
  -9223372036854775808 ≤ n ∧ n ≤ 9223372036854775807

instance (n : Int) : Decidable (InRange n) :=
  inferInstanceAs (Decidable (_ ∧ _))

theorem inRange_toInt (n : Int64) : InRange n.toInt :=
  ⟨n.le_toInt, Int.le_sub_one_of_lt n.toInt_lt⟩

theorem InRange.toInt_ofInt {n : Int} (h : InRange n) : (Int64.ofInt n).toInt = n :=
  Int64.toInt_ofInt_of_le h.1 (Int.lt_of_le_sub_one h.2)

namespace Value

def integer : Value → Int
  | .int n => n.toInt
  | _ => 0

theorem ofInt?_eq (n : Int) :
    ofInt? n = if InRange n then some (.int (Int64.ofInt n)) else none := by
  have hmin : Int64.minValue.toInt = -9223372036854775808 := by decide
  have hmax : Int64.maxValue.toInt = 9223372036854775807 := by decide
  rw [ofInt?, hmin, hmax]
  rfl

end Value

namespace BinaryOp

/-- Arithmetic in ℤ; a quotient is rounded towards zero. -/
def exact : BinaryOp → Int → Int → Int
  | .add, a, b => a + b
  | .subtract, a, b => a - b
  | .multiply, a, b => a * b
  | .divide, a, b => a.tdiv b
  | _, _, _ => 0

theorem onInts?_eq {op : BinaryOp} (hop : op.isArithmetic = true) (a b : Int) :
    op.onInts? a b = if op = .divide ∧ b = 0 then none else some (op.exact a b) := by
  cases op with
  | add | subtract | multiply => rfl
  | divide => simp [onInts?, exact]
  | _ => cases hop

theorem result?_int {op : BinaryOp} (hop : op.isArithmetic = true) (a b : Int64) :
    op.result? (.int a) (.int b) =
      if InRange (op.exact a.toInt b.toInt) ∧ ¬(op = .divide ∧ b.toInt = 0) then
        some (.int (Int64.ofInt (op.exact a.toInt b.toInt)))
      else none := by
  have harith : op.result? (.int a) (.int b) =
      (op.onInts? a.toInt b.toInt).bind Value.ofInt? := by
    cases op with
    | add | subtract | multiply | divide => rfl
    | _ => cases hop
  rw [harith, onInts?_eq hop]
  by_cases hzero : op = .divide ∧ b.toInt = 0
  · rw [if_pos hzero, if_neg fun h => h.2 hzero]
    rfl
  · rw [if_neg hzero, Option.bind_some, Value.ofInt?_eq]
    simp only [hzero, not_false_eq_true, and_true]

end BinaryOp

namespace Expr

/-- Arithmetic over integers, with the values that are computed later among its leaves. -/
inductive IsIntegral : Expr → Prop where
  | constant (n : Int64) : IsIntegral (.constant (.int n))
  | deferred {d : Deferred} {n : Int64} : d.result = .int n → IsIntegral (.deferred d)
  | computed (description : String) {d : Deferred} {n : Int64} :
      d.result = .int n → IsIntegral (.computed description d)
  | convert {inner : Expr} : inner.IsIntegral → IsIntegral (.convert inner)
  | binary {op : BinaryOp} {left right : Expr} :
      op.isArithmetic = true → left.IsIntegral → right.IsIntegral →
      IsIntegral (.binary op left right)

def exact : Expr → Int
  | .member .. => 0
  | .constant v => v.integer
  | .deferred d | .computed _ d => d.result.integer
  | .convert inner => inner.exact
  | .binary op left right => op.exact left.exact right.exact

def subterms : Expr → List Expr
  | .convert inner => .convert inner :: inner.subterms
  | .binary op left right => .binary op left right :: (left.subterms ++ right.subterms)
  | e => [e]

def divisor? : Expr → Option Expr
  | .binary .divide _ right => some right
  | _ => none

/-- 64 bits hold the value of every expression in this one, and no divisor is zero. -/
def IsExact (e : Expr) : Prop :=
  ∀ s ∈ e.subterms, InRange s.exact ∧ s.divisor?.map exact ≠ some 0

instance (e : Expr) : Decidable e.IsExact :=
  inferInstanceAs (Decidable (∀ s ∈ e.subterms, _ ∧ _))

theorem IsExact.inRange {e : Expr} (h : e.IsExact) : InRange e.exact :=
  (h e (by cases e <;> exact .head _)).1

theorem isExact_convert (inner : Expr) : (convert inner).IsExact ↔ inner.IsExact :=
  List.forall_mem_cons.trans <| and_iff_right_of_imp fun h =>
    ⟨IsExact.inRange (e := inner) h, fun h => nomatch h⟩

theorem divisor?_binary (op : BinaryOp) (left right : Expr) :
    (binary op left right).divisor?.map exact ≠ some 0 ↔ ¬(op = .divide ∧ right.exact = 0) := by
  cases op <;> simp [divisor?]

theorem isExact_binary (op : BinaryOp) (left right : Expr) :
    (binary op left right).IsExact ↔
      (InRange (op.exact left.exact right.exact) ∧ ¬(op = .divide ∧ right.exact = 0)) ∧
        left.IsExact ∧ right.IsExact := by
  rw [← divisor?_binary op left right]
  exact List.forall_mem_cons.trans (and_congr_right fun _ => List.forall_mem_append)

theorem isExact_of_leaf {e : Expr} {n : Int64} (hleaf : e.subterms = [e])
    (hdivisor : e.divisor? = none) (hn : e.exact = n.toInt) : e.IsExact := by
  rw [IsExact, hleaf, List.forall_mem_singleton, hn, hdivisor]
  exact ⟨inRange_toInt n, fun h => nomatch h⟩

theorem evaluate_binary_of_value {op : BinaryOp} {left right : Expr} {a b : Value}
    (hl : left.evaluate.value = some a) (hr : right.evaluate.value = some b) :
    (binary op left right).evaluate.value = op.result? a b := by
  rw [evaluate_binary, hl, hr, Option.bind_some, Option.bind_some]

theorem evaluate_binary_of_none {op : BinaryOp} {left right : Expr}
    (h : left.evaluate.value = none ∨ right.evaluate.value = none) :
    (binary op left right).evaluate.value = none := by
  rw [evaluate_binary]
  cases hl : left.evaluate.value with
  | none => rfl
  | some a => rw [Option.bind_some, h.resolve_left (by simp [hl]), Option.bind_none]

/-- Evaluation is exact arithmetic behind one check for all of its steps. An overflow within an
expression is an overflow of the whole, also where the steps around it lead back into the range. -/
theorem IsIntegral.evaluate_eq {e : Expr} (he : e.IsIntegral) :
    e.evaluate.value = if e.IsExact then some (.int (Int64.ofInt e.exact)) else none := by
  have hleaf {e : Expr} {n : Int64} (hvalue : e.evaluate.value = some (.int n))
      (hexact : e.exact = n.toInt) (h : e.IsExact) :
      e.evaluate.value = if e.IsExact then some (.int (Int64.ofInt e.exact)) else none := by
    rw [if_pos h, hvalue, hexact, Int64.ofInt_toInt]
  induction he with
  | constant n => exact hleaf rfl rfl (isExact_of_leaf rfl rfl rfl)
  | deferred h | computed _ h =>
    have hexact := congrArg Value.integer h
    exact hleaf (congrArg some h) hexact (isExact_of_leaf rfl rfl hexact)
  | convert _ ih =>
    simp only [isExact_convert]
    exact ih
  | @binary op left right hop hl hr ihl ihr =>
    simp only [isExact_binary]
    by_cases hleft : left.IsExact
    · by_cases hright : right.IsExact
      · rw [if_pos hleft] at ihl
        rw [if_pos hright] at ihr
        rw [evaluate_binary_of_value ihl ihr, BinaryOp.result?_int hop,
          hleft.inRange.toInt_ofInt, hright.inRange.toInt_ofInt]
        simp only [hleft, hright, and_true]
        rfl
      · rw [if_neg hright] at ihr
        rw [evaluate_binary_of_none (.inr ihr), if_neg fun h => hright h.2.2]
    · rw [if_neg hleft] at ihl
      rw [evaluate_binary_of_none (.inl ihl), if_neg fun h => hleft h.2.1]

/-! ### The text of arithmetic -/

def spelled : Expr → String
  | .member .. => ""
  | .constant v => v.text
  | .deferred d | .computed _ d => d.result.text
  | .convert inner => inner.spelled
  | .binary op left right => "(" ++ left.spelled ++ op.spaced ++ right.spelled ++ ")"

theorem IsIntegral.written_verbatim {e : Expr} (he : e.IsIntegral) (d : Dialect)
    (column : ColumnRef → String) (scope : Scope) :
    (Operand.verbatim scope e).written d column = e.spelled := by
  induction he with
  | constant => rfl
  | deferred h | computed _ h =>
    change d.written _ none = Value.text _
    rw [h]
    rfl
  | convert _ ih => exact ih
  | binary _ _ _ ihl ihr => rw [Operand.verbatim, Operand.written, ihl, ihr, spelled]

theorem IsIntegral.atoms_of_value {e : Expr} (he : e.IsIntegral) {x : Value}
    (hx : e.evaluate.value = some x) (scope : Scope) (v : View) :
    ∃ a, (scope.atoms e).value = [a] ∧ (a.render v).value = v.dialect.written x none := by
  have hwritten {x y : Value} (h : some y = some x) :
      v.dialect.written y none = v.dialect.written x none := by rw [Option.some.inj h]
  induction he with
  | constant | deferred | computed => exact ⟨_, rfl, hwritten hx⟩
  | convert _ ih => exact ih hx
  | binary hop =>
    rw [scope.atoms_eq, Operand.ofExpr, if_pos hop, hx]
    exact ⟨_, rfl, rfl⟩

theorem IsIntegral.atomsText_of_none {e : Expr} (he : e.IsIntegral)
    (hnone : e.evaluate.value = none) (scope : Scope) (v : View) :
    atomsText v (scope.atoms e).value = e.spelled := by
  induction he with
  | constant | deferred | computed => cases hnone
  | convert _ ih => exact ih hnone
  | binary hop hl hr =>
    rw [scope.atoms_eq, Operand.ofExpr, if_pos hop, hnone, atomsText_row]
    simp only [Operand.written, hl.written_verbatim, hr.written_verbatim, spelled]

end Expr

/-- Integers are folded exactly or not at all. An expression over integers has its value in ℤ if 64
bits hold that of every expression in it and no divisor is zero, and is then translated to one
literal. Otherwise it has no value, of any kind, and is translated operator by operator. -/
theorem integers_fold_exactly {e : Expr} (he : e.IsIntegral) (scope : Scope) (v : View) :
    (∀ n : Int64, e.evaluate.value = some (.int n) ↔ e.IsExact ∧ n.toInt = e.exact) ∧
      (e.evaluate.value = none ↔ ¬e.IsExact) ∧
      (e.IsExact → ∃ n a, e.evaluate.value = some (.int n) ∧ (scope.atoms e).value = [a] ∧
        (a.render v).value = toString e.exact) ∧
      (¬e.IsExact → atomsText v (scope.atoms e).value = e.spelled) := by
  have hvalue := he.evaluate_eq
  by_cases h : e.IsExact
  · rw [if_pos h] at hvalue
    have hexact := h.inRange.toInt_ofInt
    refine ⟨fun n => ?_, by simp [hvalue, h], fun _ => ?_, fun hnot => absurd h hnot⟩
    · rw [hvalue, Option.some.injEq, Value.int.injEq, ← Int64.toInt_inj, hexact, and_iff_right h]
      exact eq_comm
    · obtain ⟨a, hatoms, ha⟩ := he.atoms_of_value hvalue scope v
      refine ⟨_, a, hvalue, hatoms, ha.trans ?_⟩
      change toString (Int64.ofInt e.exact).toInt = _
      rw [hexact]
  · rw [if_neg h] at hvalue
    refine ⟨fun n => ?_, by simp [hvalue, h], fun hexact => absurd hexact h, fun _ => ?_⟩
    · simp [hvalue, h]
    · exact he.atomsText_of_none hvalue scope v

/-- The sum leaves the range and the difference around it leads back; the quotient is cut off
towards zero. -/
theorem integers_fold_exactly_hidden_overflow :
    let greatest : Deferred := ⟨0, 0, .int Int64.maxValue⟩
    let one : Expr := .constant (.int 1)
    let hidden : Expr := .binary .subtract (.binary .add (.deferred greatest) one) one
    let cut : Expr := .convert (.binary .divide (.constant (.int (-7))) (.constant (.int 2)))
    let v : View := ⟨.sqlite, true, [], [], [], none⟩
    hidden.IsIntegral ∧ InRange hidden.exact ∧ hidden.evaluate.value = none ∧
      atomsText v (Scope.atoms {} hidden).value = "((9223372036854775807 + 1) - 1)" ∧
      cut.IsIntegral ∧ cut.evaluate.value = some (.int (-3)) := by
  intro greatest one hidden cut v
  have hhidden : hidden.IsIntegral :=
    .binary rfl (.binary rfl (.deferred rfl) (.constant 1)) (.constant 1)
  have hcut : cut.IsIntegral := .convert (.binary rfl (.constant (-7)) (.constant 2))
  have hnot : ¬hidden.IsExact := by decide
  obtain ⟨-, hnone, -, htext⟩ := integers_fold_exactly hhidden {} v
  exact ⟨hhidden, by decide, hnone.2 hnot, (htext hnot).trans (by decide), hcut,
    ((integers_fold_exactly hcut {} v).1 (-3)).2 (by decide)⟩

end SqlComposer
