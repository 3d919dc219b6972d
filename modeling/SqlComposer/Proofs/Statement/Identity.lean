import SqlComposer.Proofs.Draft.Carried
import SqlComposer.Proofs.Draft.Distinct
import SqlComposer.Proofs.Tree.Renamed

/-!
# Statements without identity

What a statement says does not depend on the keys, the names and the seals of its parts. All parts
of a process take their keys from one supply, so a statement that is built again has other keys, and
it is written as it was.
-/
namespace SqlComposer

variable {ρ : Key → Key}

namespace Part

def renamed (ρ : Key → Key) (p : Part) : Part :=
  p.relabel { key := ρ }

theorem carries_renamed (hρ : Function.Injective ρ) : Carries ρ (renamed ρ) where
  injective := hρ
  leaf _ content := ⟨content, rfl⟩
  group h shape cs isClosed :=
    congrArg (fun cs => Part.group { h with key := ρ h.key } shape cs isClosed) (relabelAll_eq cs)
  field? p := by
    cases p with
    | group => rfl
    | leaf head content => cases content <;> rfl

theorem renamed_ofAtoms {key key' : Key} {atoms : List Atom}
    (h : Follows ρ key key' atoms.length) :
    (ofAtoms key atoms).map (renamed ρ) = ofAtoms key' atoms := by
  induction atoms generalizing key key' with
  | nil => rfl
  | cons a atoms ih =>
    have hatom : (ofAtom key a).renamed ρ = ofAtom (ρ key) a := by cases a <;> rfl
    rw [ofAtoms, List.map_cons, hatom, h.first, ih h.rest, ofAtoms]

end Part

namespace Edit

/-- The same edit with other keys: of the parts that it puts in and of the parts that it names. -/
inductive Renamed (ρ : Key → Key) : Edit → Edit → Prop
  | add (p : Part) : Renamed ρ (add p) (add (p.renamed ρ))
  | addBefore (p : Part) (tag : Tag) : Renamed ρ (addBefore p tag) (addBefore (p.renamed ρ) tag)
  | addAfter (p : Part) (tag : Tag) : Renamed ρ (addAfter p tag) (addAfter (p.renamed ρ) tag)
  | addAheadOf (p : Part) {anchor anchor' : Part → Bool}
      (h : ∀ q, anchor' (q.renamed ρ) = anchor q) :
      Renamed ρ (addAheadOf p anchor) (addAheadOf (p.renamed ρ) anchor')
  | addToLast (p : Part) (tag : Tag) : Renamed ρ (addToLast p tag) (addToLast (p.renamed ρ) tag)
  | addToLastWhere (p : Part) {anchor anchor' : Part → Bool}
      (h : ∀ q, anchor' (q.renamed ρ) = anchor q) :
      Renamed ρ (addToLastWhere p anchor) (addToLastWhere (p.renamed ρ) anchor')
  | push (group : Key) (p : Part) : Renamed ρ (push group p) (push (ρ group) (p.renamed ρ))
  | remove (key : Key) : Renamed ρ (remove key) (remove (ρ key))
  | close (group : Key) : Renamed ρ (close group) (close (ρ group))
  | addText (tag : Tag) (s : String) : Renamed ρ (addText tag s) (addText tag s)
  | addList (tag : Tag) : Renamed ρ (addList tag) (addList tag)
  | insertSource (tag : Tag) (entity : String) (tableAlias : Option String)
      {before before' : Part → Bool} (h : ∀ q, before' (q.renamed ρ) = before q) :
      Renamed ρ (insertSource tag entity tableAlias before)
        (insertSource tag entity tableAlias before')
  | addExpression (scope : Scope) (e : Expr) (tag : Tag) :
      Renamed ρ (addExpression scope e tag) (addExpression scope e tag)
  | nestExpression (scope : Scope) (e : Expr) (tag : Tag) {anchor anchor' : Part → Bool}
      (h : ∀ q, anchor' (q.renamed ρ) = anchor q) :
      Renamed ρ (nestExpression scope e tag anchor) (nestExpression scope e tag anchor')
  | addRestriction (scope : Scope) (e : Expr) {before before' : Part → Bool}
      (h : ∀ q, before' (q.renamed ρ) = before q) :
      Renamed ρ (addRestriction scope e before) (addRestriction scope e before')
  | extendClause (clause : Key) (scope : Scope) (e : Expr) :
      Renamed ρ (extendClause clause scope e) (extendClause (ρ clause) scope e)
  | addField (f : ColumnRef) : Renamed ρ (addField f) (addField f)
  | supplyFields (fields : List ColumnRef) : Renamed ρ (supplyFields fields) (supplyFields fields)
  | closeSelect : Renamed ρ closeSelect closeSelect

theorem renamed_expression (hρ : Function.Injective ρ) (d : Draft) (scope : Scope) (e : Expr)
    (tag : Tag) {key : Key} (h : Follows ρ d.nextKey key ((scope.atoms e).value.length + 1)) :
    (expression d scope e tag).renamed ρ =
      expression (d.carried (Part.renamed ρ) key) scope e tag := by
  rw [expression, (Part.carries_renamed hρ).clause, h.first, Part.renamed_ofAtoms h.rest]
  rfl

theorem addExpression_value (d : Draft) (scope : Scope) (e : Expr) (tag : Tag) :
    (d.addExpression scope e tag).value =
      d.spend ((scope.atoms e).value.length + 1) (d.add (expression d scope e tag)) := rfl

theorem nestExpression_value (d : Draft) (scope : Scope) (e : Expr) (tag : Tag)
    (anchor : Part → Bool) :
    (d.nestExpression scope e tag anchor).value =
      d.spend ((scope.atoms e).value.length + 1)
        (d.addToLastWhere (expression d scope e tag) anchor) := rfl

theorem addRestriction_value (d : Draft) (scope : Scope) (e : Expr) (before : Part → Bool) :
    (d.addRestriction scope e before).value =
      d.spend ((scope.atoms e).value.length + 1)
        (if d.contains .whereClause then
          d.addToLast (expression d scope e .andClause) .whereClause
        else d.addAheadOf (expression d scope e .whereClause) before) := by
  rw [Draft.addRestriction]
  split_ifs <;> rfl

/-- With other keys an edit does the same, if the keys that it takes are the renamed ones. -/
theorem Renamed.apply (hρ : Function.Injective ρ) {edit edit' : Edit}
    (h : edit.Renamed ρ edit') (d : Draft) :
    ∃ n, (edit.apply d).nextKey = d.nextKey + n ∧ ∀ key, Follows ρ d.nextKey key n →
      edit'.apply (d.carried (Part.renamed ρ) key) =
        (edit.apply d).carried (Part.renamed ρ) (key + n) := by
  have c := Part.carries_renamed hρ
  have htext (key : Key) (tag : Tag) (s : String) :
      (Part.text key tag s).renamed ρ = .text (ρ key) tag s := rfl
  have hlist (key : Key) (tag : Tag) : (Part.list key tag).renamed ρ = .list (ρ key) tag := rfl
  cases h with
  | add p => exact ⟨0, rfl, fun key _ => d.spend_carried (d.toTree.add_carried p) key 0⟩
  | addBefore p tag =>
    exact ⟨0, rfl, fun key _ => d.spend_carried (d.toTree.addBefore_carried c p tag) key 0⟩
  | addAfter p tag =>
    exact ⟨0, rfl, fun key _ => d.spend_carried (d.toTree.addAfter_carried c p tag) key 0⟩
  | addAheadOf p h =>
    exact ⟨0, rfl, fun key _ => d.spend_carried (d.toTree.addAheadOf_carried h p) key 0⟩
  | addToLast p tag =>
    exact ⟨0, rfl, fun key _ => d.spend_carried (d.toTree.addToLast_carried c p tag) key 0⟩
  | addToLastWhere p h =>
    exact ⟨0, rfl, fun key _ => d.spend_carried (d.toTree.addToLastWhere_carried c h p) key 0⟩
  | push group p =>
    exact ⟨0, rfl, fun key _ => d.spend_carried (d.toTree.update_carried c (c.push p) group) key 0⟩
  | remove k =>
    refine ⟨0, rfl, fun key _ => d.spend_carried ?_ key 0⟩
    have hremove : (d.carried (Part.renamed ρ) key).remove? (ρ k) =
        (d.remove? k).map (Prod.map (Part.renamed ρ) (Tree.carried (Part.renamed ρ))) :=
      d.toTree.remove?_carried c k
    rw [hremove]
    cases d.remove? k <;> rfl
  | close group =>
    exact ⟨0, rfl, fun key _ => d.spend_carried (d.toTree.update_carried c c.close group) key 0⟩
  | addText tag s =>
    refine ⟨1, rfl, fun key hkey => d.spend_carried ?_ key 1⟩
    rw [Tree.add_carried, htext, hkey.first]
    rfl
  | addList tag =>
    refine ⟨1, rfl, fun key hkey => d.spend_carried ?_ key 1⟩
    rw [Tree.add_carried, hlist, hkey.first]
    rfl
  | insertSource tag entity tableAlias h =>
    refine ⟨1, rfl, fun key hkey => ?_⟩
    exact Draft.insertSource_carried c d h tag entity tableAlias hkey.first
  | addExpression scope e tag =>
    simp only [Edit.apply, addExpression_value]
    refine ⟨(scope.atoms e).value.length + 1, rfl, fun key hkey => d.spend_carried ?_ key _⟩
    rw [Tree.add_carried, renamed_expression hρ d scope e tag hkey]
    rfl
  | nestExpression scope e tag h =>
    simp only [Edit.apply, nestExpression_value]
    refine ⟨(scope.atoms e).value.length + 1, rfl, fun key hkey => d.spend_carried ?_ key _⟩
    rw [d.toTree.addToLastWhere_carried c h, renamed_expression hρ d scope e tag hkey]
    rfl
  | addRestriction scope e h =>
    simp only [Edit.apply, addRestriction_value]
    refine ⟨(scope.atoms e).value.length + 1, rfl, fun key hkey => d.spend_carried ?_ key _⟩
    rw [show (d.carried (Part.renamed ρ) key).contains .whereClause = _ from
      d.toTree.contains_carried c .whereClause]
    split_ifs
    · rw [d.toTree.addToLast_carried c, renamed_expression hρ d scope e .andClause hkey]
      rfl
    · rw [d.toTree.addAheadOf_carried h, renamed_expression hρ d scope e .whereClause hkey]
      rfl
  | extendClause clause scope e =>
    have hfind (key : Key) : ((d.carried (Part.renamed ρ) key).find? (ρ clause)).any Part.isGroup =
        (d.find? clause).any Part.isGroup := by
      rw [show (d.carried (Part.renamed ρ) key).find? (ρ clause) = _ from
        d.toTree.find?_carried c clause, Option.any_map]
      simp only [c.isGroup]
    simp only [Edit.apply, extendClause_value, hfind]
    by_cases hgroup : (d.find? clause).any Part.isGroup = true
    · simp only [if_pos hgroup]
      refine ⟨(scope.atoms e).value.length, rfl, fun key hkey => d.spend_carried ?_ key _⟩
      rw [d.toTree.update_foldl_push_carried c, Part.renamed_ofAtoms hkey]
      rfl
    · simp only [if_neg hgroup]
      exact ⟨0, rfl, fun _ _ => rfl⟩
  | addField f => exact ⟨1, rfl, fun key hkey => Draft.addField_carried c d f hkey.first⟩
  | supplyFields fields => exact Draft.supplyFields_carried c d fields
  | closeSelect => exact ⟨0, rfl, fun key _ => Draft.closeSelect_carried c d key⟩

/-- What `edits` build on `d`, `edits'` build again with other keys, taken from `key` on. Between
two edits of either build, others may take any number of keys from the same supply. -/
inductive Again (ρ : Key → Key) : Draft → Key → List Edit → List Edit → Prop
  | nil (d : Draft) (key : Key) : Again ρ d key [] []
  | makeParts {d : Draft} {key : Key} {edits edits' : List Edit} (m n : Nat)
      (h : Again ρ (d.spend m d.toTree) (key + n) edits edits') :
      Again ρ d key (.makeParts m :: edits) (.makeParts n :: edits')
  | cons {d : Draft} {key : Key} {n : Nat} {edit edit' : Edit} {edits edits' : List Edit}
      (hedit : edit.Renamed ρ edit') (hnext : (edit.apply d).nextKey = d.nextKey + n)
      (hkeys : Follows ρ d.nextKey key n) (h : Again ρ (edit.apply d) (key + n) edits edits') :
      Again ρ d key (edit :: edits) (edit' :: edits')

theorem Again.toTree_run (hρ : Function.Injective ρ) {d : Draft} {key : Key}
    {edits edits' : List Edit} (h : Again ρ d key edits edits') :
    (run (d.carried (Part.renamed ρ) key) edits').toTree =
      (run d edits).toTree.carried (Part.renamed ρ) := by
  induction h with
  | nil => rfl
  | makeParts _ _ _ ih => exact ih
  | @cons d key n edit edit' edits edits' hedit hnext hkeys _ ih =>
    obtain ⟨m, hm, happly⟩ := hedit.apply hρ d
    obtain rfl : n = m := Nat.add_left_cancel (hnext.symm.trans hm)
    rw [← happly key hkeys] at ih
    exact ih

end Edit

namespace Compiler

/-- Two trees in which nothing is made late from keys, and which are the same but for one-to-one
renamed keys and for names and seals, give the same SQL or the same error. So does a statement that
is built again, with the keys that the supply has by then. -/
theorem compile_ignores_identity (c : Compiler) :
    (∀ (ρ : Key → Key) (t t' : Tree), Set.InjOn ρ {k | k ∈ t.keys} → t.IgnoresKeys →
        t.Renamed ρ t' →
        (c.compile t').outcome.map Compiled.sql = (c.compile t).outcome.map Compiled.sql) ∧
      ∀ (ρ : Key → Key) (d : Draft) (key : Key) (edits edits' : List Edit), Function.Injective ρ →
        (Edit.run d edits).IgnoresKeys → Edit.Again ρ d key edits edits' →
        (c.compile (Edit.run (d.carried (Part.renamed ρ) key) edits').toTree).outcome.map
            Compiled.sql =
          (c.compile (Edit.run d edits).toTree).outcome.map Compiled.sql := by
  have hsame (ρ : Key → Key) (t t' : Tree) (hρ : Set.InjOn ρ {k | k ∈ t.keys})
      (ht : t.IgnoresKeys) (h : t.Renamed ρ t') :
      (c.compile t').outcome.map Compiled.sql = (c.compile t).outcome.map Compiled.sql := by
    rw [outcome_compile, outcome_compile, c.sql_renamed hρ ht h]
  refine ⟨hsame, fun ρ d key edits edits' hρ hlate hagain => hsame ρ _ _ hρ.injOn hlate ?_⟩
  have hrelabel : (Edit.run d edits).toTree.carried (Part.renamed ρ) =
      (Edit.run d edits).toTree.relabel { key := ρ } := by
    rw [Tree.relabel, Part.relabelAll_eq]
    rfl
  rw [hagain.toTree_run hρ, hrelabel]
  exact Tree.renamed_relabel ρ _

def defined : Tree where
  parts :=
    [.text 1 .createTable "CREATE TABLE Customer(",
      .clause 2 .plain none none
        [.column 3 { name := "Id", columnType := .int },
          .column 4 { name := "Age", columnType := .int }],
      .text 5 .plain ")"]

/-- The definition under other keys, with its clause closed and its columns without names. -/
def redefined : Tree where
  parts :=
    [.text 9 .createTable "CREATE TABLE Customer(",
      .group ⟨8, .plain, some "Customer"⟩ (.clause none none)
        [.leaf ⟨7, .column, none⟩ (.column { name := "Id", columnType := .int }),
          .leaf ⟨6, .column, none⟩ (.column { name := "Age", columnType := .int })] true,
      .text 5 .plain ")"]

def asked (list column restriction : Key) (elsewhere : Nat) : List Edit :=
  [.makeParts 2, .add (.list list .select), .push list (.field column (.named "Id")),
    .makeParts elsewhere,
    .addRestriction {} (.equals (.col "Age") (.constant (.int 3))) fun _ => false,
    .insertSource .fromClause "Customer" none fun p => p.key == restriction]

/-- The supply stands at 41, and nine keys are taken elsewhere before the restriction is made. -/
def later (k : Nat) : Nat :=
  if k < 3 then k + 40 else k + 49

theorem compile_ignores_identity_defined :
    Set.InjOn (10 - ·) {k | k ∈ defined.keys} ∧ defined.IgnoresKeys ∧
      defined.Renamed (10 - ·) redefined ∧
      (compile {} redefined).outcome.map Compiled.sql =
        .ok "CREATE TABLE Customer(Id int, Age int)" ∧
      (Edit.run {} (asked 1 2 3 0)).IgnoresKeys ∧ Function.Injective later ∧
      Edit.Again later {} 41 (asked 1 2 3 0) (asked 41 42 52 9) ∧
      (compile {} (Edit.run { nextKey := 41 } (asked 41 42 52 9)).toTree).outcome.map Compiled.sql =
        .ok "select Id FROM Customer WHERE (Age = 3)" := by
  have hkeys : ∀ a ∈ defined.keys, ∀ b ∈ defined.keys, 10 - a = 10 - b → a = b := by decide
  have hone : Set.InjOn (10 - ·) {k | k ∈ defined.keys} := fun a ha b hb => hkeys a ha b hb
  have hdefined : defined.IgnoresKeys := Tree.ignoresKeys_of_none_isLate rfl
  have hrenamed : defined.Renamed (10 - ·) redefined :=
    ⟨rfl, fun _ => rfl, rfl⟩
  have hasked : (Edit.run {} (asked 1 2 3 0)).IgnoresKeys := Tree.ignoresKeys_of_none_isLate rfl
  have hlater : Function.Injective later := by
    intro a b heq
    unfold later at heq
    split_ifs at heq <;> omega
  have hanchor (q : Part) : ((q.renamed later).key == 52) = (q.key == 3) := by
    rw [beq_eq_decide, beq_eq_decide]
    exact decide_eq_decide.2 ((Part.carries_renamed hlater).key_eq_iff (k := 3))
  have hagain : Edit.Again later {} 41 (asked 1 2 3 0) (asked 41 42 52 9) := by
    refine .makeParts 2 2 ?_
    refine .cons (n := 0) (.add _) rfl (by decide) ?_
    refine .cons (n := 0) (.push _ _) rfl (by decide) ?_
    refine .makeParts 0 9 ?_
    refine .cons (n := 6) (.addRestriction _ _ fun _ => rfl) rfl (by decide) ?_
    exact .cons (n := 1) (.insertSource _ _ _ hanchor) rfl (by decide) (.nil _ _)
  obtain ⟨hsame, hbuilt⟩ := compile_ignores_identity {}
  refine ⟨hone, hdefined, hrenamed, ?_, hasked, hlater, hagain, ?_⟩
  · rw [hsame _ defined redefined hone hdefined hrenamed]
    decide +kernel
  · exact (hbuilt later {} 41 _ _ hlater hasked hagain).trans (by decide +kernel)

end Compiler

end SqlComposer
