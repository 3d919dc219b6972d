import SqlComposer.Proofs.Expr.Condition

/-!
# Rows of tests

A binary expression is written in brackets, or else its operator is arithmetic and the expression
is written as the one number that it has as its value. Either way it ends where it ends, so a row
of binary expressions falls into tests in one way only.
-/
namespace SqlComposer

def Value.isNumber : Value → Bool
  | .int _ | .float _ => true
  | _ => false

/-- Brackets keep an operand apart from the words around it, and a single number needs none. -/
def Operand.isWhole : Operand → Bool
  | .column _ => false
  | .parameter p =>
    match p.source with
    | .value v => v.isNumber
    | .deferred _ | .expr _ => false
  | .binary .. | .nullTest .. => true

inductive TestRow : List Part → Operand → List (Connective × Operand) → Prop where
  | test {l : List Part} {t : Operand} : Reads l t → t.isWhole = true → TestRow l t []
  | behind {l r : List Part} {b : Part} {first t : Operand} {rest : List (Connective × Operand)}
      {k : Connective} :
      TestRow l first rest → b.IsConnective k → Reads r t → t.isWhole = true →
      TestRow (l ++ b :: r) first (rest ++ [(k, t)])

theorem Part.IsConnective.unique {b : Part} {k k' : Connective} (h : b.IsConnective k)
    (h' : b.IsConnective k') : k = k' := by
  have htag := h.2.symm.trans h'.2
  cases k <;> cases k' <;> first | rfl | cases htag

namespace TestRow

variable {l : List Part} {first first' : Operand} {rest rest' : List (Connective × Operand)}

theorem exists_eq (h : TestRow l first rest) :
    (Reads l first ∧ rest = []) ∨
      ∃ front b r before k t, l = front ++ b :: r ∧ TestRow front first before ∧
        b.IsConnective k ∧ Reads r t ∧ rest = before ++ [(k, t)] := by
  cases h with
  | test hr => exact .inl ⟨hr, rfl⟩
  | behind hfront hb hr => exact .inr ⟨_, _, _, _, _, _, rfl, hfront, hb, hr, rfl⟩

theorem unique (h : TestRow l first rest) (h' : TestRow l first' rest') :
    first = first' ∧ rest = rest' := by
  -- both rows have the same last word, as there is none in a test
  have hleaf {r : List Part} {t : Operand} (hr : Reads r t) : ∀ p ∈ r, ¬p.isGroup = true :=
    fun p hp => by simp [hr.isGroup_eq_false p hp]
  induction h generalizing rest' with
  | test hr =>
    obtain ⟨hr', rfl⟩ | ⟨front, b, r, before, k, t, rfl, -, hb, -⟩ := h'.exists_eq
    · exact ⟨hr.unique hr', rfl⟩
    · exact absurd hb.1 (hleaf hr b (List.mem_append_right _ List.mem_cons_self))
  | behind _ hb hr _ ih =>
    obtain ⟨hr', rfl⟩ | ⟨front, b, r, before, k, t, hrow, hfront, hb', hr', rfl⟩ := h'.exists_eq
    · exact absurd hb.1 (hleaf hr' _ (List.mem_append_right _ List.mem_cons_self))
    · obtain ⟨rfl, rfl, rfl⟩ := append_cons_injective hrow hb.1 hb'.1 (hleaf hr) (hleaf hr')
      obtain ⟨rfl, rfl⟩ := ih hfront
      rw [hb.unique hb', hr.unique hr']
      exact ⟨rfl, rfl⟩

theorem disjunction (h : TestRow l first rest) (hfirst : first.isBracketed = true)
    (hrest : ∀ p ∈ rest, p.2.isBracketed = true) : Disjunction l (.inRow first rest) := by
  induction h with
  | test hr => exact .conjunction (.test hr hfirst)
  | behind _ hb hr _ ih =>
    rw [List.forall_mem_append] at hrest
    rw [Condition.inRow_append]
    exact (ih hfirst hrest.1).behind hb hr (hrest.2 _ (List.mem_singleton_self _))

end TestRow

theorem Condition.admits_inRow_of_and {holds : Operand → Prop} {first : Operand}
    {rest : List (Connective × Operand)} (h : ∀ next ∈ rest, next.1 = .and) :
    (inRow first rest).Admits holds ↔ holds first ∧ ∀ next ∈ rest, holds next.2 := by
  induction rest using List.reverseRecOn with
  | nil => exact (and_iff_left fun _ => nofun).symm
  | append_singleton rest next ih =>
    obtain ⟨k, t⟩ := next
    rw [List.forall_mem_append] at h
    obtain rfl : k = .and := h.2 _ (List.mem_singleton_self _)
    have hor : (inRow first rest).isOr = false := by
      rw [Bool.eq_false_iff, ne_eq, isOr_inRow]
      intro hmem
      obtain ⟨next, hnext, hk⟩ := List.mem_map.1 hmem
      rw [h.1 next hnext] at hk
      cases hk
    rw [inRow_append, behind_eq_onto hor, onto, Admits, ih h.1, List.forall_mem_append,
      List.forall_mem_singleton, and_assoc]
    rfl

/-! ### Binary expressions -/

def Expr.isBinary : Expr → Bool
  | .binary .. => true
  | _ => false

theorem Expr.isNumber_of_evaluate {op : BinaryOp} (hop : op.isArithmetic = true)
    {left right : Expr} {v : Value} (h : (Expr.binary op left right).evaluate.value = some v) :
    v.isNumber = true := by
  obtain ⟨n, rfl⟩ | ⟨x, rfl⟩ := evaluate_arithmetic_eq_some hop h <;> rfl

theorem Operand.isWhole_ofExpr (scope : Scope) {e : Expr} (h : e.isBinary = true) :
    (ofExpr scope e).isWhole = true := by
  cases e with
  | member | constant | deferred | convert | computed => cases h
  | binary op left right =>
    rw [ofExpr]
    split_ifs with hop
    · cases hv : (Expr.binary op left right).evaluate.value with
      | none => rfl
      | some v => exact Expr.isNumber_of_evaluate hop hv
    all_goals rfl

end SqlComposer
