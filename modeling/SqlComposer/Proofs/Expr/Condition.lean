import SqlComposer.Proofs.Expr.Written

/-!
# Conditions

Tests with `AND` and `OR` between them. A condition that is built test by test has a meaning of its
own: every word takes what was built so far as a whole. A row of tests with the words between them
is read by the precedence of SQL instead, where `AND` binds tighter than `OR`.
-/
namespace SqlComposer

inductive Condition where
  | test (t : Operand)
  | and (left right : Condition)
  | or (left right : Condition)

inductive Connective where
  | and
  | or
  deriving DecidableEq, Repr

namespace Connective

def tag : Connective → Tag
  | .and => .andClause
  | .or => .orClause

def word : Connective → String
  | .and => " AND "
  | .or => " OR "

end Connective

namespace Operand

def isBracketed : Operand → Bool
  | .column _ | .parameter _ => false
  | .binary .. | .nullTest .. => true

end Operand

namespace Condition

/-- Whether a condition holds in a row in which just these tests do. There is no negation in a
condition, so tests that are unknown in SQL need no value of their own: a condition is true there
iff it is true with them taken for false. -/
def Admits (holds : Operand → Prop) : Condition → Prop
  | .test t => holds t
  | .and l r => l.Admits holds ∧ r.Admits holds
  | .or l r => l.Admits holds ∨ r.Admits holds

def written (d : Dialect) (column : ColumnRef → String) : Condition → String
  | .test t => t.written d column
  | .and l r => l.written d column ++ " AND " ++ r.written d column
  | .or l r => l.written d column ++ " OR " ++ r.written d column

/-- The word takes the whole condition as its left side. -/
def onto (c : Condition) : Connective → Operand → Condition
  | .and, t => .and c (.test t)
  | .or, t => .or c (.test t)

/-- The word stands behind the condition: `AND` takes the last alternative as its left side. -/
def behind (c : Condition) : Connective → Operand → Condition
  | .or, t => .or c (.test t)
  | .and, t =>
    match c with
    | .or l r => .or l (.and r (.test t))
    | c => .and c (.test t)

def built (first : Operand) (rest : List (Connective × Operand)) : Condition :=
  rest.foldl (fun c next => c.onto next.1 next.2) (.test first)

/-- The condition that the tests say when they are written one behind the other. -/
def inRow (first : Operand) (rest : List (Connective × Operand)) : Condition :=
  rest.foldl (fun c next => c.behind next.1 next.2) (.test first)

variable {holds : Operand → Prop} {c w : Condition} {first t : Operand}
  {rest : List (Connective × Operand)}

theorem admits_behind (h : w.Admits holds → c.Admits holds) (k : Connective) (t : Operand) :
    (w.onto k t).Admits holds → (c.behind k t).Admits holds := by
  cases k with
  | or => exact Or.imp_left h
  | and =>
    rintro ⟨hw, ht⟩
    cases c with
    | test | and => exact ⟨h hw, ht⟩
    | or l r => exact (h hw).imp_right fun hr => ⟨hr, ht⟩

/-- A row of tests admits what the condition admits that was built from them, and perhaps more. -/
theorem admits_inRow (first : Operand) (rest : List (Connective × Operand)) :
    (built first rest).Admits holds → (inRow first rest).Admits holds := by
  -- the two conditions need not be the same on the way, but the one in a row admits more
  have hfold : ∀ {w c : Condition}, (w.Admits holds → c.Admits holds) →
      (rest.foldl (fun c next => c.onto next.1 next.2) w).Admits holds →
        (rest.foldl (fun c next => c.behind next.1 next.2) c).Admits holds := by
    induction rest with
    | nil => exact fun h => h
    | cons next rest ih => exact fun h => ih (admits_behind h next.1 next.2)
  exact hfold id

theorem built_append (first : Operand) (rest : List (Connective × Operand)) (k : Connective)
    (t : Operand) : built first (rest ++ [(k, t)]) = (built first rest).onto k t := by
  rw [built, List.foldl_append]
  rfl

theorem inRow_append (first : Operand) (rest : List (Connective × Operand)) (k : Connective)
    (t : Operand) : inRow first (rest ++ [(k, t)]) = (inRow first rest).behind k t := by
  rw [inRow, List.foldl_append]
  rfl

def isOr : Condition → Bool
  | .or .. => true
  | .test _ | .and .. => false

theorem isOr_behind (c : Condition) (k : Connective) (t : Operand) :
    (c.behind k t).isOr = (c.isOr || k = .or) := by
  cases k with
  | or => simp [behind, isOr]
  | and => cases c <;> rfl

theorem isOr_inRow (first : Operand) (rest : List (Connective × Operand)) :
    (inRow first rest).isOr = true ↔ .or ∈ rest.map Prod.fst := by
  induction rest using List.reverseRecOn with
  | nil => simp [inRow, isOr]
  | append_singleton rest next ih =>
    obtain ⟨k, t⟩ := next
    rw [inRow_append, isOr_behind, Bool.or_eq_true, ih, List.map_append, List.mem_append]
    simp [eq_comm]

theorem behind_eq_onto (hc : c.isOr = false) (k : Connective) (t : Operand) :
    c.behind k t = c.onto k t := by
  cases k with
  | or => rfl
  | and =>
    cases c with
    | or => cases hc
    | test | and => rfl

theorem onto_injective {k : Connective} (h : c.onto k t = w.onto k t) : c = w := by
  cases k <;> injection h

/-- A row of tests says the condition that was built from them iff no `AND` comes behind an `OR`. -/
theorem inRow_eq_built_iff (first : Operand) (rest : List (Connective × Operand)) :
    inRow first rest = built first rest ↔
      (rest.map Prod.fst).Pairwise fun k k' => k = .or → k' = .or := by
  induction rest using List.reverseRecOn with
  | nil => simp [inRow, built]
  | append_singleton rest next ih =>
    obtain ⟨k, t⟩ := next
    have hlast : (rest.map Prod.fst ++ [k]).Pairwise (fun k k' => k = .or → k' = .or) ↔
        (rest.map Prod.fst).Pairwise (fun k k' => k = .or → k' = .or) ∧
          (.or ∈ rest.map Prod.fst → k = .or) := by
      rw [List.pairwise_append]
      simp only [List.mem_singleton, forall_eq, List.pairwise_singleton, true_and]
      exact and_congr_right fun _ =>
        ⟨fun h hor => h _ hor rfl, fun h k' hk' hor => h (hor ▸ hk')⟩
    rw [inRow_append, built_append, List.map_append, List.map_singleton, hlast, ← ih,
      ← isOr_inRow first rest]
    cases k with
    | or => exact ⟨fun h => ⟨onto_injective (k := .or) h, fun _ => rfl⟩, fun h => by rw [h.1]; rfl⟩
    | and =>
      cases hor : (inRow first rest).isOr with
      | false =>
        rw [behind_eq_onto hor]
        exact ⟨fun h => ⟨onto_injective h, fun h => absurd h Bool.false_ne_true⟩,
          fun h => by rw [h.1]⟩
      | true =>
        -- the last alternative has taken the test
        have hside : (inRow first rest).behind .and t ≠ (built first rest).onto .and t := by
          intro h
          have hisOr := isOr_behind (inRow first rest) .and t
          rw [h, hor] at hisOr
          cases hisOr
        exact ⟨fun h => absurd h hside, fun h => absurd (h.2 rfl) (by decide)⟩

/-! ### The text of a condition -/

theorem written_behind (d : Dialect) (column : ColumnRef → String) (c : Condition) (k : Connective)
    (t : Operand) :
    (c.behind k t).written d column = c.written d column ++ k.word ++ t.written d column := by
  cases k with
  | or => rfl
  | and =>
    cases c with
    | test | and => rfl
    | or l r => simp only [behind, written, Connective.word, String.append_assoc]

theorem written_inRow (d : Dialect) (column : ColumnRef → String) (first : Operand)
    (rest : List (Connective × Operand)) :
    (inRow first rest).written d column =
      first.written d column ++
        Text.joinWith "" (rest.map fun next => next.1.word ++ next.2.written d column) := by
  induction rest using List.reverseRecOn with
  | nil => simp [inRow, written, Text.joinWith]
  | append_singleton rest next ih =>
    rw [inRow_append, written_behind, ih, List.map_append, ← String.toList_inj]
    simp only [String.toList_append, Text.toList_joinWith_empty, List.flatMap_append,
      List.map_singleton, List.flatMap_singleton, List.append_assoc]

end Condition

/-! ### Reading a row -/

def Part.IsConnective (k : Connective) (p : Part) : Prop :=
  p.isGroup = true ∧ p.tag = k.tag

inductive Conjunction : List Part → Condition → Prop where
  | test {l : List Part} {t : Operand} :
      Reads l t → t.isBracketed = true → Conjunction l (.test t)
  | and {l r : List Part} {b : Part} {c : Condition} {t : Operand} :
      Conjunction l c → b.IsConnective .and → Reads r t → t.isBracketed = true →
      Conjunction (l ++ b :: r) (.and c (.test t))

inductive Disjunction : List Part → Condition → Prop where
  | conjunction {l : List Part} {c : Condition} : Conjunction l c → Disjunction l c
  | or {l r : List Part} {b : Part} {c d : Condition} :
      Disjunction l c → b.IsConnective .or → Conjunction r d → Disjunction (l ++ b :: r) (.or c d)

theorem Reads.isGroup_eq_false {l : List Part} {t : Operand} (h : Reads l t) :
    ∀ p ∈ l, p.isGroup = false := by
  have hfragment {p : Part} {s : String} (hp : p.IsFragment s) : p.isGroup = false := by
    obtain ⟨_, -, rfl⟩ := hp
    rfl
  induction h with
  | column | parameter =>
    intro p hp
    rw [List.mem_singleton.1 hp]
    rfl
  | binary ha _ hb _ hc ihl ihr =>
    simp only [List.forall_mem_cons, List.forall_mem_append]
    exact ⟨hfragment ha, ihl, hfragment hb, ihr, hfragment hc, List.forall_mem_nil _⟩
  | nullTest ha _ hb hc ih =>
    simp only [List.forall_mem_cons, List.forall_mem_append]
    exact ⟨hfragment ha, ih, hfragment hb, hfragment hc, List.forall_mem_nil _⟩

theorem append_cons_injective {α : Type} {P : α → Prop} {l l' r r' : List α} {a a' : α}
    (h : l ++ a :: r = l' ++ a' :: r') (ha : P a) (ha' : P a') (hr : ∀ b ∈ r, ¬P b)
    (hr' : ∀ b ∈ r', ¬P b) : l = l' ∧ a = a' ∧ r = r' := by
  obtain ⟨m, rfl, hm⟩ | ⟨m, rfl, hm⟩ := List.append_eq_append_iff.1 h
  · cases m with
    | nil =>
      obtain ⟨rfl, rfl⟩ := List.cons.inj hm
      exact ⟨(List.append_nil l).symm, rfl, rfl⟩
    | cons b m =>
      obtain ⟨-, rfl⟩ := List.cons.inj hm
      exact absurd ha' (hr a' (List.mem_append_right _ List.mem_cons_self))
  · cases m with
    | nil =>
      obtain ⟨rfl, rfl⟩ := List.cons.inj hm
      exact ⟨List.append_nil l', rfl, rfl⟩
    | cons b m =>
      obtain ⟨-, rfl⟩ := List.cons.inj hm
      exact absurd ha (hr' a (List.mem_append_right _ List.mem_cons_self))

namespace Conjunction

variable {l m : List Part} {c d : Condition}

theorem isConnective_or (h : Conjunction l c) : ∀ p ∈ l, ¬p.IsConnective .or := by
  have hreads {r : List Part} {t : Operand} (hr : Reads r t) : ∀ p ∈ r, ¬p.IsConnective .or :=
    fun p hp hor => Bool.false_ne_true ((hr.isGroup_eq_false p hp).symm.trans hor.1)
  induction h with
  | test hr => exact hreads hr
  | and _ hb hr _ ih =>
    rw [List.forall_mem_append, List.forall_mem_cons]
    refine ⟨ih, fun hor => ?_, hreads hr⟩
    exact absurd (hb.2.symm.trans hor.2) (by decide)

theorem isOr_eq_false (h : Conjunction l c) : c.isOr = false := by
  cases h <;> rfl

theorem exists_eq (h : Conjunction l c) :
    (∃ t, Reads l t ∧ c = .test t) ∨
      ∃ front b r d t, l = front ++ b :: r ∧ Conjunction front d ∧ b.isGroup = true ∧ Reads r t ∧
        c = .and d (.test t) := by
  cases h with
  | test hr => exact .inl ⟨_, hr, rfl⟩
  | and hfront hb hr => exact .inr ⟨_, _, _, _, _, rfl, hfront, hb.1, hr, rfl⟩

theorem unique (hc : Conjunction l c) (hd : Conjunction l d) : c = d := by
  have hleaf {r : List Part} {t : Operand} (hr : Reads r t) : ∀ p ∈ r, ¬p.isGroup = true :=
    fun p hp => by simp [hr.isGroup_eq_false p hp]
  induction hc generalizing d with
  | test hr =>
    obtain ⟨t, hr', rfl⟩ | ⟨front, b, r, d, t, rfl, -, hb, -⟩ := hd.exists_eq
    · rw [hr.unique hr']
    · exact absurd hb (hleaf hr b (List.mem_append_right _ List.mem_cons_self))
  | and _ hb hr _ ih =>
    obtain ⟨t, hr', rfl⟩ | ⟨front, b, r, d, t, hrow, hfront, hb', hr', rfl⟩ := hd.exists_eq
    · exact absurd hb.1 (hleaf hr' _ (List.mem_append_right _ List.mem_cons_self))
    · obtain ⟨rfl, -, rfl⟩ := append_cons_injective hrow hb.1 hb' (hleaf hr) (hleaf hr')
      rw [ih hfront, hr.unique hr']

end Conjunction

namespace Disjunction

variable {l r : List Part} {b : Part} {c d : Condition} {t : Operand} {k : Connective}

theorem exists_eq (h : Disjunction l c) :
    Conjunction l c ∨ ∃ front b r d e, l = front ++ b :: r ∧ Disjunction front d ∧
      b.IsConnective .or ∧ Conjunction r e ∧ c = .or d e := by
  cases h with
  | conjunction h => exact .inl h
  | or hfront hb hr => exact .inr ⟨_, _, _, _, _, rfl, hfront, hb, hr, rfl⟩

theorem unique (hc : Disjunction l c) (hd : Disjunction l d) : c = d := by
  -- both readings have the same last `OR`, as there is none in a conjunction
  induction hc generalizing d with
  | conjunction h =>
    obtain h' | ⟨front, b, r, d, e, rfl, -, hb, -⟩ := hd.exists_eq
    · exact h.unique h'
    · exact absurd hb (h.isConnective_or b (List.mem_append_right _ List.mem_cons_self))
  | or _ hb hr ih =>
    obtain h' | ⟨front, b, r, d, e, hrow, hfront, hb', hr', rfl⟩ := hd.exists_eq
    · exact absurd hb (h'.isConnective_or _ (List.mem_append_right _ List.mem_cons_self))
    · obtain ⟨rfl, -, rfl⟩ := append_cons_injective hrow hb hb' hr.isConnective_or
        hr'.isConnective_or
      rw [ih hfront, hr.unique hr']

theorem behind (h : Disjunction l c) (hb : b.IsConnective k) (hr : Reads r t)
    (ht : t.isBracketed = true) : Disjunction (l ++ b :: r) (c.behind k t) := by
  cases k with
  | or => exact .or h hb (.test hr ht)
  | and =>
    cases h with
    | conjunction h =>
      rw [Condition.behind_eq_onto h.isOr_eq_false]
      exact .conjunction (.and h hb hr ht)
    | or hl hb' hr' =>
      -- the test belongs to the last alternative
      rw [List.append_assoc, List.cons_append]
      exact .or hl hb' (.and hr' hb hr ht)

end Disjunction

end SqlComposer
