import SqlComposer.Proofs.Expr.Strings
import SqlComposer.Tree

/-!
# Comparisons with `NULL`

A comparison with the bare constant `NULL` says a null test of its other side, as long as no
arithmetic stands above it. Where the constant is converted, and below arithmetic, the operator
stays and `NULL` is compared like any other value.
-/
namespace SqlComposer

inductive Side where
  | left
  | right
  deriving DecidableEq, Repr

namespace Expr

variable {e left right : Expr} {op : BinaryOp} {path : List Side}

/-- What stands behind a path of sides. Conversions are passed without a step. -/
def node? : Expr → List Side → Option Expr
  | .convert inner, path => inner.node? path
  | .binary _ left _, .left :: path => left.node? path
  | .binary _ _ right, .right :: path => right.node? path
  | e, [] => some e
  | _, _ :: _ => none

def underArithmetic : Expr → List Side → Bool
  | .convert inner, path => inner.underArithmetic path
  | .binary op left _, .left :: path => op.isArithmetic || left.underArithmetic path
  | .binary op _ right, .right :: path => op.isArithmetic || right.underArithmetic path
  | _, _ => false

def isNull : Expr → Bool
  | .convert inner => inner.isNull
  | e => e.isNullConstant

theorem eq_of_isNullConstant (h : e.isNullConstant = true) : e = .constant .null := by
  cases e with
  | constant v =>
    cases v with
    | null => rfl
    | _ => cases h
  | _ => cases h

end Expr

namespace BinaryOp

def isEquality : BinaryOp → Bool
  | .equal | .notEqual => true
  | _ => false

theorem isEquality_iff {op : BinaryOp} : op.isEquality = true ↔ op = .equal ∨ op = .notEqual := by
  cases op <;> decide

theorem isArithmetic_of_isEquality {op : BinaryOp} (h : op.isEquality = true) :
    op.isArithmetic = false := by
  cases op <;> first | rfl | cases h

theorem result?_of_isEquality {op : BinaryOp} {a b v : Value} (hop : op.isEquality = true)
    (h : op.result? a b = some v) : ∃ x, v = .bool x := by
  rcases isEquality_iff.1 hop with rfl | rfl <;> exact ⟨_, (Option.some.inj h).symm⟩

theorem result?_of_bool {op : BinaryOp} {a b v : Value}
    (hab : (∃ x, a = .bool x) ∨ ∃ x, b = .bool x) (h : op.result? a b = some v) :
    ∃ x, v = .bool x := by
  have hlogical (hv : op.logical? a b = some v) : ∃ x, v = .bool x := by
    unfold logical? at hv
    split at hv
    · split at hv <;> cases hv <;> exact ⟨_, rfl⟩
    · cases hv
  have harithmetic : op.arithmetic? a b = none := by
    rcases hab with ⟨x, rfl⟩ | ⟨x, rfl⟩
    · cases b <;> rfl
    · cases a <;> rfl
  cases op with
  | equal | notEqual => exact ⟨_, (Option.some.inj h).symm⟩
  | and | or => exact hlogical h
  | greater | greaterOrEqual | less | lessOrEqual => cases h
  | add | subtract | multiply | divide => rw [result?, harithmetic] at h; cases h

end BinaryOp

namespace Expr

variable {e left right : Expr} {op : BinaryOp} {path : List Side}

theorem evaluate_of_equality (hop : op.isEquality = true)
    (h : e.node? path = some (.binary op left right)) {v : Value}
    (hv : e.evaluate.value = some v) : ∃ x, v = .bool x := by
  induction e generalizing path v with
  | member | constant | deferred | computed =>
    cases path <;> cases h
  | convert inner ih => exact ih h hv
  | binary o l r ihl ihr =>
    obtain ⟨a, b, ha, hb, hv⟩ := exists_of_evaluate_binary hv
    match path, h with
    | [], rfl => exact BinaryOp.result?_of_isEquality hop hv
    | .left :: path, h => exact BinaryOp.result?_of_bool (.inl (ihl h ha)) hv
    | .right :: path, h => exact BinaryOp.result?_of_bool (.inr (ihr h hb)) hv

theorem evaluate_eq_none_of_equality {o : BinaryOp} {l r : Expr} (ho : o.isArithmetic = true)
    (hop : op.isEquality = true)
    (h : (Expr.binary o l r).node? path = some (.binary op left right)) :
    (Expr.binary o l r).evaluate.value = none := by
  cases hv : (Expr.binary o l r).evaluate.value with
  | none => rfl
  | some v =>
    obtain ⟨x, rfl⟩ := evaluate_of_equality hop h hv
    rcases evaluate_arithmetic_eq_some ho hv with ⟨_, hnumber⟩ | ⟨_, hnumber⟩ <;> cases hnumber

theorem not_isNullConstant_of_node? (h : e.node? path = some (.binary op left right)) :
    e.isNullConstant = false := by
  rw [Bool.eq_false_iff]
  intro hnull
  rw [eq_of_isNullConstant hnull] at h
  cases path <;> cases h

end Expr

namespace Operand

variable {scope : Scope} {e left right : Expr} {op : BinaryOp} {path : List Side}

/-- What stands behind a path of sides. A null test has one side only, whichever was asked for. -/
def node? : Operand → List Side → Option Operand
  | t, [] => some t
  | .binary _ left _, .left :: path => left.node? path
  | .binary _ _ right, .right :: path => right.node? path
  | .nullTest _ tested, _ :: path => tested.node? path
  | _, _ :: _ => none

theorem node?_nil (t : Operand) : t.node? [] = some t := by
  cases t <;> rfl

theorem verbatim_of_isNull (h : e.isNull = true) : verbatim scope e = value .null := by
  induction e with
  | convert inner ih => exact ih h
  | member | constant | deferred | binary | computed => rw [Expr.eq_of_isNullConstant h]; rfl

theorem ofExpr_of_isNull (h : e.isNull = true) : ofExpr scope e = value .null := by
  induction e with
  | convert inner ih => exact ih h
  | member | constant | deferred | binary | computed => rw [Expr.eq_of_isNullConstant h]; rfl

theorem node?_verbatim (h : e.node? path = some (.binary op left right)) :
    (verbatim scope e).node? path = some (verbatim scope (.binary op left right)) := by
  induction e generalizing path with
  | member | constant | deferred | computed =>
    cases path <;> cases h
  | convert inner ih => exact ih h
  | binary o l r ihl ihr =>
    match path, h with
    | [], rfl => rfl
    | .left :: _, h => exact ihl h
    | .right :: _, h => exact ihr h

theorem node?_ofExpr_left {o : BinaryOp} {l r : Expr} (ho : ¬o.isArithmetic = true)
    (hl : l.isNullConstant = false) :
    (ofExpr scope (.binary o l r)).node? (.left :: path) = (ofExpr scope l).node? path := by
  have hleft : ¬((o = .equal ∨ o = .notEqual) ∧ l.isNullConstant = true) :=
    fun h => Bool.false_ne_true (hl.symm.trans h.2)
  rw [ofExpr, if_neg ho, if_neg hleft]
  split_ifs <;> rfl

theorem node?_ofExpr_right {o : BinaryOp} {l r : Expr} (ho : ¬o.isArithmetic = true)
    (hr : r.isNullConstant = false) :
    (ofExpr scope (.binary o l r)).node? (.right :: path) = (ofExpr scope r).node? path := by
  have hright : ¬((o = .equal ∨ o = .notEqual) ∧ r.isNullConstant = true) :=
    fun h => Bool.false_ne_true (hr.symm.trans h.2)
  rw [ofExpr, if_neg ho, if_neg hright]
  split_ifs <;> rfl

/-- An equality is found where it stands in its expression: verbatim below arithmetic, and as an
expression of its own elsewhere. -/
theorem node?_ofExpr (hop : op.isEquality = true)
    (h : e.node? path = some (.binary op left right)) :
    (ofExpr scope e).node? path = some
      (if e.underArithmetic path then verbatim scope (.binary op left right)
      else ofExpr scope (.binary op left right)) := by
  induction e generalizing path with
  | member | constant | deferred | computed =>
    cases path <;> cases h
  | convert inner ih => exact ih h
  | binary o l r ihl ihr =>
    -- arithmetic above the equality has no value, so it is verbatim as well
    have hverbatim (ho : o.isArithmetic = true) :
        ofExpr scope (.binary o l r) = verbatim scope (.binary o l r) := by
      rw [ofExpr, if_pos ho, Expr.evaluate_eq_none_of_equality ho hop h, verbatim]
    rcases path with _ | ⟨step, path⟩
    · cases h
      exact node?_nil _
    cases step with
    | left =>
      have hl : l.node? path = some (.binary op left right) := h
      rw [Expr.underArithmetic]
      by_cases ho : o.isArithmetic = true
      · rw [hverbatim ho, ho]
        exact node?_verbatim hl
      · rw [node?_ofExpr_left ho (Expr.not_isNullConstant_of_node? hl), Bool.eq_false_iff.2 ho]
        exact ihl hl
    | right =>
      have hr : r.node? path = some (.binary op left right) := h
      rw [Expr.underArithmetic]
      by_cases ho : o.isArithmetic = true
      · rw [hverbatim ho, ho]
        exact node?_verbatim hr
      · rw [node?_ofExpr_right ho (Expr.not_isNullConstant_of_node? hr), Bool.eq_false_iff.2 ho]
        exact ihr hr

theorem verbatim_binary_of_isNull (scope : Scope) (op : BinaryOp) (left right : Expr) :
    ∃ a b, verbatim scope (.binary op left right) = .binary op a b ∧
      (left.isNull = true → a = value .null) ∧ (right.isNull = true → b = value .null) :=
  ⟨_, _, rfl, verbatim_of_isNull, verbatim_of_isNull⟩

theorem ofExpr_equality_of_not_bare (hop : op.isEquality = true)
    (hbare : ¬(left.isNullConstant = true ∨ right.isNullConstant = true)) :
    ∃ a b, ofExpr scope (.binary op left right) = .binary op a b ∧
      (left.isNull = true → a = value .null) ∧ (right.isNull = true → b = value .null) := by
  rw [not_or] at hbare
  have harith : ¬op.isArithmetic = true := by
    rw [BinaryOp.isArithmetic_of_isEquality hop]
    exact Bool.false_ne_true
  refine ⟨ofExpr scope left, ofExpr scope right, ?_, ofExpr_of_isNull, ofExpr_of_isNull⟩
  rw [ofExpr, if_neg harith, if_neg fun h => hbare.2 h.2, if_neg fun h => hbare.1 h.2]

theorem ofExpr_equality_of_bare (hop : op.isEquality = true)
    (hbare : left.isNullConstant = true ∨ right.isNullConstant = true) :
    ofExpr scope (.binary op left right) = .nullTest (op = .equal)
      (ofExpr scope (if right.isNullConstant then left else right)) := by
  have harith : ¬op.isArithmetic = true := by
    rw [BinaryOp.isArithmetic_of_isEquality hop]
    exact Bool.false_ne_true
  have hequality := BinaryOp.isEquality_iff.1 hop
  rw [ofExpr, if_neg harith]
  by_cases hright : right.isNullConstant = true
  · rw [if_pos ⟨hequality, hright⟩, if_pos hright]
  · rw [if_neg fun h => hright h.2, if_pos ⟨hequality, hbare.resolve_right hright⟩, if_neg hright]

end Operand

/-- In what the parts of an expression say, an equality is a null test of one side if the other is
the bare `NULL` and no arithmetic stands above. In every other case the operator is there, and a
`NULL` stands beside it as a value. -/
theorem null_comparisons_read (scope : Scope) (e : Expr) (key : Key) :
    ∃ said, (∀ t, Reads (Part.ofAtoms key (scope.atoms e).value) t ↔ t = said) ∧
      ∀ path op left right, e.node? path = some (.binary op left right) → op.isEquality = true →
        ∃ t, said.node? path = some t ∧
          (e.underArithmetic path = false ∧
              (left.isNullConstant = true ∨ right.isNullConstant = true) →
            t = .nullTest (op = .equal)
              (.ofExpr scope (if right.isNullConstant then left else right))) ∧
          (¬(e.underArithmetic path = false ∧
              (left.isNullConstant = true ∨ right.isNullConstant = true)) →
            ∃ a b, t = .binary op a b ∧ (left.isNull = true → a = .value .null) ∧
              (right.isNull = true → b = .value .null)) := by
  refine ⟨.ofExpr scope e, reads_ofAtoms_iff scope e key, ?_⟩
  intro path op left right h hop
  refine ⟨_, Operand.node?_ofExpr hop h, ?_, ?_⟩
  · rintro ⟨hplain, hbare⟩
    rw [hplain, if_neg Bool.false_ne_true]
    exact Operand.ofExpr_equality_of_bare hop hbare
  · intro hnot
    by_cases hunder : e.underArithmetic path = true
    · rw [if_pos hunder]
      exact Operand.verbatim_binary_of_isNull scope op left right
    · rw [if_neg hunder]
      exact Operand.ofExpr_equality_of_not_bare hop fun hbare =>
        hnot ⟨Bool.eq_false_iff.2 hunder, hbare⟩

/-- A null test below a conversion, and a comparison with `NULL` below an addition. -/
theorem null_comparisons_read_nested :
    let named : Expr := .binary .notEqual (.constant .null) (.col "Name")
    let unnumbered : Expr := .equals (.col "Id") (.constant .null)
    let e : Expr := .binary .or (.convert named)
      (.binary .less (.binary .add unnumbered (.constant (.int 1))) (.col "Grade"))
    e.node? [.left] = some named ∧ e.node? [.right, .left, .left] = some unnumbered ∧
      ∃ said, (∀ t, Reads (Part.ofAtoms 1 (Scope.atoms {} e).value) t ↔ t = said) ∧
        said.node? [.left] = some (.nullTest false (.column { field := "Name" })) ∧
        ∃ a, said.node? [.right, .left, .left] = some (.binary .equal a (.value .null)) := by
  intro named unnumbered e
  obtain ⟨said, hsaid, hnodes⟩ := null_comparisons_read {} e 1
  refine ⟨rfl, rfl, said, hsaid, ?_, ?_⟩
  · obtain ⟨t, ht, htest, -⟩ := hnodes [.left] .notEqual _ _ rfl rfl
    rw [ht, htest ⟨rfl, .inl rfl⟩]
    rfl
  · obtain ⟨t, ht, -, hcompared⟩ := hnodes [.right, .left, .left] .equal _ _ rfl rfl
    obtain ⟨a, b, rfl, -, hb⟩ := hcompared fun h => Bool.noConfusion h.1
    exact ⟨a, hb rfl ▸ ht⟩

/-- A converted `NULL` and a `NULL` below an addition are written behind an equals sign. -/
theorem null_behind_equals_sign :
    let v := ({} : Tree).view .sqlite true
    let converted : Expr := .equals (.col "Name") (.convert (.constant .null))
    let added : Expr :=
      .binary .add (.equals (.col "Name") (.constant .null)) (.constant (.int 1))
    let written (e : Expr) := (renderAtoms v (Scope.atoms { entity := some "Customer" } e).value).value
    written converted = "(Customer.Name = NULL)" ∧ written converted ≠ "(Customer.Name IS NULL)" ∧
      written added = "((Customer.Name = NULL) + 1)" ∧
      written added ≠ "((Customer.Name IS NULL) + 1)" := by
  decide +kernel

end SqlComposer
