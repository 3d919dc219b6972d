import SqlComposer.Proofs.Statement.Procedure
import SqlComposer.Proofs.Tree.Unqualified

/-!
# What is written without tables

A statement whose columns are not qualified, and a procedure call whatever is asked for, does not
depend on aliases or on the tables that columns are under. The declarations of a procedure call are
made when the call is written, and look at the dialect only.
-/
namespace SqlComposer

theorem Tree.IgnoresTables.addLeaf {t : Tree} (ht : t.IgnoresTables) {l : Leaf}
    (hl : l.IgnoresTables) (head : Head) : (t.add (.leaf head l)).IgnoresTables := by
  intro p hp
  rw [flatten, add, Part.flattenAll_append, List.mem_append] at hp
  obtain hp | hp := hp
  · exact ht p hp
  · cases List.mem_singleton.1 hp
    exact hl

namespace Procedure

variable {q q' : Procedure} {call : Call}

theorem declaration_alike {v w : View} (h : v.Alike w) (name : String) (type : ColumnType)
    (initial : Option Value) : declaration name type initial w = declaration name type initial v := by
  rw [declaration, declaration, h.dialect]

theorem ignoresTables_apply (hq : q.draft.IgnoresTables) (h : call.apply q = .ok q') :
    q'.draft.IgnoresTables := by
  cases call with
  | parameter name source =>
    cases h
    exact hq.addLeaf (l := .parameter _) trivial _
  | output name type initial =>
    rw [Call.apply, output] at h
    split_ifs at h
    cases h
    have hdeclared := hq.addLeaf (l := .late (declaration (bareName name) type initial))
      (fun v w h => declaration_alike h _ _ _) ⟨q.draft.nextKey, .outputDeclaration, none⟩
    exact (hdeclared.addLeaf (l := .text _) trivial _).addLeaf (l := .text _) trivial _

theorem ignoresTables_run {c : Compiler} {name : String} {calls : List Call}
    (h : run c name calls = .ok q) : q.draft.IgnoresTables := by
  rw [run, named] at h
  split_ifs at h
  · cases h
  · exact foldlM_induction (I := fun _ q => q.draft.IgnoresTables) [] ignoresTables_apply
      (fun p hp => by cases hp) h

end Procedure

namespace Compiler

/-- A statement in which nothing is made late from its tables, and which is compiled without
qualified columns, gives the SQL or the error of the statement without tables that is compiled with
qualified columns. So what comes of it depends neither on its aliases nor on the tables that its
columns are under, and what comes of a procedure call never does. -/
theorem compile_ignores_tables {t : Tree} (ht : t.IgnoresTables) (dialect : Dialect) :
    (compile ⟨dialect, false⟩ t).outcome.map Compiled.sql =
        (compile ⟨dialect, true⟩ t.unqualified).outcome.map Compiled.sql ∧
      ∀ t' : Tree, t'.IgnoresTables → t'.shape = t.shape →
        t'.unqualified.parts = t.unqualified.parts →
        (compile ⟨dialect, false⟩ t').outcome.map Compiled.sql =
            (compile ⟨dialect, false⟩ t).outcome.map Compiled.sql ∧
          ∀ name, t.shape = .procedure name → ∀ qualify qualify',
            (compile ⟨dialect, qualify'⟩ t').outcome.map Compiled.sql =
              (compile ⟨dialect, qualify⟩ t).outcome.map Compiled.sql := by
  simp only [outcome_compile]
  refine ⟨?_, fun t' ht' hshape hparts => ?_⟩
  · rw [← sql_unqualified dialect ht true t.aliases]
    rfl
  · have hsql := congrArg Rendering.outcome (sql_congr dialect ht ht' hshape hparts)
    refine ⟨hsql, fun name hname qualify qualify' => ?_⟩
    rw [sql_procedure dialect hname, sql_procedure dialect (hshape.trans hname), hsql]

def linked : Tree where
  parts :=
    [.list 1 .select [.field 2 (.ofEntity "Order" "Id")],
      .clause 3 .whereClause none none
        [.parameter 4 .plain
          { source := .expr (.equals (.qualifiedAs "o" "CustomerId") (.qualified "Customer" "Id")) }]]
  aliases := [("Order", "o")]

def sales : List Procedure.Call :=
  [.output "Total" .decimal none,
    .parameter (some "Customer")
      (.expr (.binary .add (.qualified "Order" "CustomerId") (.qualifiedAs "c" "Id")))]

theorem compile_ignores_tables_linked :
    linked.IgnoresTables ∧
      (compile {} linked).outcome.map Compiled.sql =
        .ok "select o.Id WHERE (o.CustomerId = Customer.Id)" ∧
      (compile ⟨.sqlite, false⟩ linked).outcome.map Compiled.sql =
        .ok "select Id WHERE (CustomerId = Id)" ∧
      (compile ⟨.sqlite, true⟩ linked.unqualified).outcome.map Compiled.sql =
        .ok "select Id WHERE (CustomerId = Id)" ∧
      ∃ q, Procedure.run { dialect := .sqlServer } "Sales" sales = .ok q ∧
        q.draft.IgnoresTables ∧
        (compile ⟨.sqlServer, true⟩ { q.draft.toTree with aliases := [("Order", "o")] }).outcome.map
            Compiled.sql =
          (compile ⟨.sqlServer, false⟩ q.draft.toTree).outcome.map Compiled.sql := by
  have hlinked : linked.IgnoresTables := by
    intro p hp
    simp only [linked, Tree.flatten, Part.flattenAll, Part.flatten, Part.list, Part.clause,
      Part.field, Part.parameter, List.cons_append, List.nil_append, List.append_nil,
      List.mem_cons, List.not_mem_nil, or_false] at hp
    obtain rfl | rfl | rfl | rfl := hp <;> trivial
  have hsame := (compile_ignores_tables hlinked .sqlite).1
  have hbare : (compile ⟨.sqlite, false⟩ linked).outcome.map Compiled.sql =
      .ok "select Id WHERE (CustomerId = Id)" := by
    decide +kernel
  obtain ⟨q, hq⟩ : ∃ q, Procedure.run { dialect := .sqlServer } "Sales" sales = .ok q := ⟨_, rfl⟩
  have hcall := Procedure.ignoresTables_run hq
  have hshape : q.draft.shape = .procedure "Sales" := by
    cases hq
    rfl
  refine ⟨hlinked, by decide +kernel, hbare, hsame.symm.trans hbare, q, hq, hcall, ?_⟩
  exact ((compile_ignores_tables hcall .sqlServer).2
    { q.draft.toTree with aliases := [("Order", "o")] } hcall rfl rfl).2 _ hshape _ _

end Compiler

end SqlComposer
