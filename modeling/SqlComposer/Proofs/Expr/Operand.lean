import SqlComposer.Part

/-!
# Reading an expression back

The parts of an expression are read by a grammar of operands: a column, a parameter, two operands
around an operator in brackets, or a null test in brackets. No row of parts can be read in two ways,
and the parts of an expression are read as `Operand.ofExpr`.
-/
namespace SqlComposer

/-- What a row of parts says: the parse tree of the grammar. -/
inductive Operand where
  | column (f : ColumnRef)
  | parameter (p : Parameter)
  | binary (op : BinaryOp) (left right : Operand)
  /-- `IS NULL`, or `IS NOT NULL` where `expected` is false -/
  | nullTest (expected : Bool) (tested : Operand)

namespace BinaryOp

def spaced (op : BinaryOp) : String :=
  " " ++ op.symbol ++ " "

theorem ofSymbol?_symbol (op : BinaryOp) : ofSymbol? op.symbol = some op := by
  cases op <;> decide

theorem spaced_injective {op op' : BinaryOp} (h : op.spaced = op'.spaced) : op = op' := by
  have hsymbol : op.symbol = op'.symbol := by
    simpa [spaced, String.append_assoc] using h
  have hread := congrArg ofSymbol? hsymbol
  simpa [ofSymbol?_symbol] using hread

theorem result?_of_isArithmetic {op : BinaryOp} (h : op.isArithmetic = true) (a b : Value) :
    op.result? a b = op.arithmetic? a b := by
  cases op with
  | add | subtract | multiply | divide => rfl
  | _ => cases h

theorem arithmetic?_eq_some {op : BinaryOp} {a b v : Value} (h : op.arithmetic? a b = some v) :
    (∃ n, v = .int n) ∨ ∃ x, v = .float x := by
  unfold arithmetic? at h
  split at h
  · obtain ⟨n, -, hn⟩ := Option.bind_eq_some_iff.1 h
    rw [Value.ofInt?] at hn
    split at hn <;> cases hn
    exact .inl ⟨_, rfl⟩
  · obtain ⟨x, -, h⟩ := Option.bind_eq_some_iff.1 h
    obtain ⟨y, -, h⟩ := Option.bind_eq_some_iff.1 h
    obtain ⟨z, -, h⟩ := Option.bind_eq_some_iff.1 h
    cases h
    exact .inr ⟨z, rfl⟩

end BinaryOp

namespace Expr

theorem evaluate_binary (op : BinaryOp) (left right : Expr) :
    (Expr.binary op left right).evaluate.value =
      left.evaluate.value.bind fun a => right.evaluate.value.bind (op.result? a) := by
  rw [evaluate, Reading.value_bind]
  cases left.evaluate.value with
  | none => rfl
  | some a =>
    simp only [Reading.value_bind, Option.bind_some]
    cases right.evaluate.value <;> rfl

theorem exists_of_evaluate_binary {op : BinaryOp} {left right : Expr} {v : Value}
    (h : (Expr.binary op left right).evaluate.value = some v) :
    ∃ a b, left.evaluate.value = some a ∧ right.evaluate.value = some b ∧
      op.result? a b = some v := by
  rw [evaluate_binary] at h
  obtain ⟨a, ha, h⟩ := Option.bind_eq_some_iff.1 h
  obtain ⟨b, hb, h⟩ := Option.bind_eq_some_iff.1 h
  exact ⟨a, b, ha, hb, h⟩

theorem evaluate_arithmetic_eq_some {op : BinaryOp} (hop : op.isArithmetic = true)
    {left right : Expr} {v : Value} (h : (Expr.binary op left right).evaluate.value = some v) :
    (∃ n, v = .int n) ∨ ∃ x, v = .float x := by
  obtain ⟨a, b, -, -, h⟩ := exists_of_evaluate_binary h
  rw [BinaryOp.result?_of_isArithmetic hop] at h
  exact BinaryOp.arithmetic?_eq_some h

end Expr

def nullTestText (expected : Bool) : String :=
  if expected then " IS NULL" else " IS NOT NULL"

theorem nullTestText_injective {b b' : Bool} (h : nullTestText b = nullTestText b') : b = b' := by
  cases b <;> cases b' <;> simp_all [nullTestText]

theorem spaced_ne_nullTestText (op : BinaryOp) (b : Bool) : op.spaced ≠ nullTestText b := by
  cases op <;> cases b <;> decide

def Part.IsFragment (p : Part) (s : String) : Prop :=
  ∃ h : Head, h.tag = .plain ∧ p = .leaf h (.text s)

theorem Part.IsFragment.text_eq {p : Part} {s t : String} (hs : p.IsFragment s)
    (ht : p.IsFragment t) : s = t := by
  obtain ⟨_, -, rfl⟩ := hs
  obtain ⟨_, -, h⟩ := ht
  injection h with _ h
  injection h

/-- The grammar of operands over rows of parts. -/
inductive Reads : List Part → Operand → Prop where
  | column (h : Head) (f : ColumnRef) : Reads [.leaf h (.field f)] (.column f)
  | parameter (h : Head) (p : Parameter) : Reads [.leaf h (.parameter p)] (.parameter p)
  | binary {op : BinaryOp} {a b c : Part} {l r : List Part} {left right : Operand} :
      a.IsFragment "(" → Reads l left → b.IsFragment op.spaced → Reads r right →
      c.IsFragment ")" → Reads (a :: (l ++ b :: (r ++ [c]))) (.binary op left right)
  | nullTest {expected : Bool} {a b c : Part} {l : List Part} {tested : Operand} :
      a.IsFragment "(" → Reads l tested → b.IsFragment (nullTestText expected) →
      c.IsFragment ")" → Reads (a :: (l ++ [b, c])) (.nullTest expected tested)

namespace Reads

theorem cons_column {h : Head} {f : ColumnRef} {m : List Part} {t : Operand} (hm : Reads m t)
    {r s : List Part} (hrow : .leaf h (.field f) :: r = m ++ s) : t = .column f ∧ s = r := by
  cases hm with
  | column => simp_all
  | parameter => simp at hrow
  | binary ha | nullTest ha =>
    obtain ⟨_, -, rfl⟩ := ha
    simp at hrow

theorem cons_parameter {h : Head} {p : Parameter} {m : List Part} {t : Operand} (hm : Reads m t)
    {r s : List Part} (hrow : .leaf h (.parameter p) :: r = m ++ s) :
    t = .parameter p ∧ s = r := by
  cases hm with
  | column => simp at hrow
  | parameter => simp_all
  | binary ha | nullTest ha =>
    obtain ⟨_, -, rfl⟩ := ha
    simp at hrow

theorem cons_bracket {a : Part} (ha : a.IsFragment "(") {m : List Part} {t : Operand}
    (hm : Reads m t) {rest s : List Part} (hrow : a :: rest = m ++ s) :
    (∃ op left right l b r c, t = .binary op left right ∧ Reads l left ∧ b.IsFragment op.spaced ∧
      Reads r right ∧ c.IsFragment ")" ∧ rest = l ++ b :: (r ++ c :: s)) ∨
    (∃ expected tested l b c, t = .nullTest expected tested ∧ Reads l tested ∧
      b.IsFragment (nullTestText expected) ∧ c.IsFragment ")" ∧ rest = l ++ b :: c :: s) := by
  cases hm with
  | column | parameter =>
    obtain ⟨_, -, rfl⟩ := ha
    simp at hrow
  | binary _ hl hb hr hc =>
    obtain ⟨-, hrest⟩ := List.cons.inj hrow
    exact .inl ⟨_, _, _, _, _, _, _, rfl, hl, hb, hr, hc, by simpa using hrest⟩
  | nullTest _ hl hb hc =>
    obtain ⟨-, hrest⟩ := List.cons.inj hrow
    exact .inr ⟨_, _, _, _, _, rfl, hl, hb, hc, by simpa using hrest⟩

/-- An operand ends where it ends: whatever follows, no other operand can be read there. -/
theorem append_injective {l m : List Part} {t u : Operand} (hl : Reads l t) (hm : Reads m u) :
    ∀ {r s : List Part}, l ++ r = m ++ s → t = u ∧ r = s := by
  induction hl generalizing m u with
  | column h f =>
    intro r s hrow
    obtain ⟨rfl, rfl⟩ := cons_column hm hrow
    exact ⟨rfl, rfl⟩
  | parameter h p =>
    intro r s hrow
    obtain ⟨rfl, rfl⟩ := cons_parameter hm hrow
    exact ⟨rfl, rfl⟩
  | binary ha _ hb _ hc ihl ihr =>
    intro r s hrow
    simp only [List.cons_append, List.append_assoc, List.nil_append] at hrow
    obtain ⟨op, left, right, _, b', _, c', rfl, hl', hb', hr', hc', hrest⟩ |
      ⟨_, _, _, _, _, rfl, hl', hb', -, hrest⟩ := cons_bracket ha hm hrow
    · obtain ⟨rfl, hop⟩ := ihl hl' hrest
      obtain ⟨rfl, hright⟩ := List.cons.inj hop
      obtain rfl := BinaryOp.spaced_injective (hb.text_eq hb')
      obtain ⟨rfl, hclose⟩ := ihr hr' hright
      exact ⟨rfl, (List.cons.inj hclose).2⟩
    · obtain ⟨-, hop⟩ := ihl hl' hrest
      obtain ⟨rfl, -⟩ := List.cons.inj hop
      exact absurd (hb.text_eq hb') (spaced_ne_nullTestText _ _)
  | nullTest ha _ hb hc ihl =>
    intro r s hrow
    simp only [List.cons_append, List.append_assoc, List.nil_append] at hrow
    obtain ⟨_, _, _, _, _, _, _, rfl, hl', hb', -, -, hrest⟩ |
      ⟨_, _, _, _, _, rfl, hl', hb', hc', hrest⟩ := cons_bracket ha hm hrow
    · obtain ⟨-, htest⟩ := ihl hl' hrest
      obtain ⟨rfl, -⟩ := List.cons.inj htest
      exact absurd (hb'.text_eq hb) (spaced_ne_nullTestText _ _)
    · obtain ⟨rfl, htest⟩ := ihl hl' hrest
      obtain ⟨rfl, hclose⟩ := List.cons.inj htest
      obtain rfl := nullTestText_injective (hb.text_eq hb')
      exact ⟨rfl, (List.cons.inj hclose).2⟩

/-- The grammar is unambiguous. -/
theorem unique {l : List Part} {t u : Operand} (ht : Reads l t) (hu : Reads l u) : t = u :=
  (ht.append_injective hu (r := []) (s := []) rfl).1

end Reads

namespace Operand

def value (v : Value) : Operand :=
  .parameter { source := .value v }

/-- An expression operator by operator: nothing is folded and no comparison becomes a null test. -/
def verbatim (scope : Scope) : Expr → Operand
  | .member entity tableAlias field => .column (scope.columnRef entity tableAlias field)
  | .constant v => value v
  | .deferred d => .parameter { source := .deferred d }
  | .computed _ d => value d.result
  | .convert inner => verbatim scope inner
  | .binary op left right => .binary op (verbatim scope left) (verbatim scope right)

/-- What the parts of an expression say. Arithmetic and computations are one value if they have one;
arithmetic without a value is verbatim down to its leaves. Elsewhere a comparison with the bare
constant `NULL` tests its other side. -/
def ofExpr (scope : Scope) : Expr → Operand
  | .member entity tableAlias field => .column (scope.columnRef entity tableAlias field)
  | .constant v => value v
  | .deferred d => .parameter { source := .deferred d }
  | .computed _ d => value d.result
  | .convert inner => ofExpr scope inner
  | .binary op left right =>
    if op.isArithmetic then
      match (Expr.binary op left right).evaluate.value with
      | some v => value v
      | none => .binary op (verbatim scope left) (verbatim scope right)
    else if (op = .equal ∨ op = .notEqual) ∧ right.isNullConstant then
      .nullTest (op = .equal) (ofExpr scope left)
    else if (op = .equal ∨ op = .notEqual) ∧ left.isNullConstant then
      .nullTest (op = .equal) (ofExpr scope right)
    else .binary op (ofExpr scope left) (ofExpr scope right)

end Operand

theorem BinaryOp.keyword?_eq (op : BinaryOp) :
    op.keyword? = if op.isArithmetic then none else some op.symbol := by
  cases op <;> rfl

theorem Scope.literal_value (scope : Scope) (e : Expr) :
    (scope.literal e).value =
      match e.evaluate.value with
      | some v => [.value v]
      | none => (scope.verbatim e).value := by
  simp only [Scope.literal, Reading.value_bind]
  cases e.evaluate.value <;> rfl

theorem Scope.nullTest?_eq (op : BinaryOp) (left right : Expr) :
    Scope.nullTest? op left right =
      if (op = .equal ∨ op = .notEqual) ∧ right.isNullConstant then
        some (nullTestText (op = .equal), true)
      else if (op = .equal ∨ op = .notEqual) ∧ left.isNullConstant then
        some (nullTestText (op = .equal), false)
      else none := by
  cases op <;> simp [Scope.nullTest?, BinaryOp.nullTest?, nullTestText]

theorem Part.ofAtoms_append (key : Key) (l m : List Atom) :
    Part.ofAtoms key (l ++ m) = Part.ofAtoms key l ++ Part.ofAtoms (key + l.length) m := by
  induction l generalizing key with
  | nil => rfl
  | cons a l ih =>
    simp only [List.cons_append, Part.ofAtoms, ih, List.length_cons]
    rw [Nat.add_right_comm, Nat.add_assoc]

theorem Part.isFragment_ofAtom (key : Key) (s : String) :
    (Part.ofAtom key (.text s)).IsFragment s :=
  ⟨{ key, tag := .plain }, rfl, rfl⟩

namespace Reads

theorem ofAtom_field (key : Key) (f : ColumnRef) : Reads (Part.ofAtoms key [.field f]) (.column f) :=
  .column _ f

theorem ofAtom_value (key : Key) (v : Value) : Reads (Part.ofAtoms key [.value v]) (.value v) :=
  .parameter _ _

theorem ofAtom_deferred (key : Key) (d : Deferred) :
    Reads (Part.ofAtoms key [.deferred d]) (.parameter { source := .deferred d }) :=
  .parameter _ _

theorem ofAtoms_binary {key : Key} {op : BinaryOp} {l r : List Atom} {left right : Operand}
    (hl : ∀ k, Reads (Part.ofAtoms k l) left) (hr : ∀ k, Reads (Part.ofAtoms k r) right) :
    Reads (Part.ofAtoms key (.text "(" :: l ++ .text op.spaced :: r ++ [Atom.text ")"]))
      (.binary op left right) := by
  simp only [List.cons_append, List.append_assoc, Part.ofAtoms, Part.ofAtoms_append]
  exact .binary (Part.isFragment_ofAtom ..) (hl _) (Part.isFragment_ofAtom ..) (hr _)
    (Part.isFragment_ofAtom ..)

theorem ofAtoms_nullTest {key : Key} {expected : Bool} {l : List Atom} {tested : Operand}
    (hl : ∀ k, Reads (Part.ofAtoms k l) tested) :
    Reads (Part.ofAtoms key (.text "(" :: l ++ [Atom.text (nullTestText expected), .text ")"]))
      (.nullTest expected tested) := by
  simp only [List.cons_append, Part.ofAtoms, Part.ofAtoms_append]
  exact .nullTest (Part.isFragment_ofAtom ..) (hl _) (Part.isFragment_ofAtom ..)
    (Part.isFragment_ofAtom ..)

theorem verbatim (scope : Scope) (e : Expr) (key : Key) :
    Reads (Part.ofAtoms key (scope.verbatim e).value) (.verbatim scope e) := by
  induction e generalizing key with
  | member => exact ofAtom_field key _
  | constant v => exact ofAtom_value key v
  | deferred d => exact ofAtom_deferred key d
  | computed _ d => exact ofAtom_value key _
  | convert inner ih => exact ih key
  | binary op left right ihl ihr => exact ofAtoms_binary ihl ihr

theorem atoms (scope : Scope) (e : Expr) (key : Key) :
    Reads (Part.ofAtoms key (scope.atoms e).value) (.ofExpr scope e) := by
  induction e generalizing key with
  | member => exact ofAtom_field key _
  | constant v => exact ofAtom_value key v
  | deferred d => exact ofAtom_deferred key d
  | computed _ d => exact ofAtom_value key _
  | convert inner ih => exact ih key
  | binary op left right ihl ihr =>
    simp only [Scope.atoms, Operand.ofExpr, BinaryOp.keyword?_eq]
    by_cases harith : op.isArithmetic
    · simp only [harith, if_true, Scope.literal_value]
      cases (Expr.binary op left right).evaluate.value with
      | some v => exact ofAtom_value key v
      | none => exact ofAtoms_binary (verbatim scope left) (verbatim scope right)
    · simp only [harith, Bool.false_eq_true, if_false, Scope.nullTest?_eq]
      by_cases hright : (op = .equal ∨ op = .notEqual) ∧ right.isNullConstant
      · simp only [if_pos hright]
        exact ofAtoms_nullTest ihl
      by_cases hleft : (op = .equal ∨ op = .notEqual) ∧ left.isNullConstant
      · simp only [if_neg hright, if_pos hleft]
        exact ofAtoms_nullTest ihr
      · simp only [if_neg hright, if_neg hleft]
        exact ofAtoms_binary ihl ihr

end Reads

/-- The parts of an expression can be read, in one way only, and say what the expression says. -/
theorem reads_ofAtoms_iff (scope : Scope) (e : Expr) (key : Key) (t : Operand) :
    Reads (Part.ofAtoms key (scope.atoms e).value) t ↔ t = .ofExpr scope e :=
  ⟨fun h => h.unique (.atoms scope e key), fun h => h ▸ .atoms scope e key⟩

end SqlComposer
