import SqlComposer.Proofs.Statement.Drawn
import SqlComposer.Proofs.Statement.Procedure
import SqlComposer.Proofs.Table.Flat

/-!
# Lists that are refused

A tree is refused for the first of its lists that cannot be written. No such list is in the
statements that are built by calls: the groups of a query, an insertion, an update and a deletion
are those of an outline, and a table statement or a procedure call has no groups.
-/
namespace SqlComposer

/-! ## Statements -/

theorem Outline.yields_compile {d : Draft} {s : Outline} (h : d = s.draft) (c : Compiler) :
    Yields (fun _ => True) (c.compile d.toTree).outcome := by
  rw [h, s.outcome_compile c]
  exact .ok trivial

theorem Key.yields_predicate (s : Schema) (values : List Value) (explicit : Option String) :
    Yields (fun _ => True) (predicate s values explicit) := by
  have hcomparison (member : String) : Yields (fun _ => True) (comparison s values member) := by
    rw [comparison]
    cases s.field? member with
    | none => exact .error rfl
    | some f => exact .ok trivial
  rw [predicate]
  refine (Yields.mapM hcomparison (members s explicit)).bind fun comparisons _ => ?_
  cases comparisons with
  | nil => exact .error rfl
  | cons first rest => exact .ok trivial

theorem Key.Refused.yields {e : Entity} {target : Option Target} {f : Fault}
    (h : Refused e target f) : Yields (fun _ : Compiled => True) (.error f) := by
  cases h with
  | @key t _ h =>
    have hyields := yields_predicate (Schema.ofEntity e) t.values t.key
    rw [h] at hyields
    cases hyields with
    | error hf => exact .error hf

theorem Update.yields_compile {q : Update} {s : Outline} (h : Drawn q.draft s [.assignments]) :
    Yields (fun _ => True) q.compile.outcome := by
  rw [compile]
  split_ifs
  · exact .error rfl
  · exact Outline.yields_compile h.draft_eq q.compiler

namespace Select

theorem yields_member (q : Select) (e : Expr) : Yields (fun _ => True) (q.member e).outcome := by
  rw [member]
  cases q.scope.field? e with
  | some f => exact .ok trivial
  | none => exact .error rfl

theorem yields_apply (q : Select) (call : Call) : Yields (fun _ => True) (call.apply q).outcome := by
  cases call with
  | join kind joined on => cases kind <;> exact .ok trivial
  | joinAs joined tableAlias on =>
    rw [Call.apply, joinAs]
    split_ifs
    · exact .error rfl
    · exact .ok trivial
  | filter | andFilter | orFilter => exact .ok trivial
  | orderBy direction | thenBy direction => cases direction <;> exact .ok trivial
  | groupBy field =>
    rw [Call.apply, groupBy, Rendering.outcome_bind]
    exact (yields_member q field).bind fun _ _ => .ok trivial
  | map source =>
    rw [Call.apply, map, Rendering.outcome_bind]
    exact (yields_member q source).bind fun _ _ => .ok trivial
  | mapAs source name =>
    rw [Call.apply, mapAs]
    split_ifs
    · exact .error rfl
    · rw [Rendering.outcome_bind]
      exact (yields_member q source).bind fun _ _ => .ok trivial
  | mapWith source name converter =>
    rw [Call.apply, mapWith, Rendering.outcome_bind]
    exact (yields_member q source).bind fun _ _ => .ok trivial
  | ignore | forType => exact .ok trivial

theorem Laid.yields_run {q : Select} {s : Outline} (h : Laid q s) (calls : List Call) :
    Yields (fun q => ∃ s, Laid q s) (q.run calls).outcome := by
  induction calls generalizing q s with
  | nil => exact .ok ⟨s, h⟩
  | cons call calls ih =>
    rw [Select.run, Rendering.outcome_bind]
    exact (yields_apply q call).with_eq.bind fun p hp => ih (h.step hp)

theorem yields_built (c : Compiler) (o : Opening) (calls : List Call) :
    Yields (fun q => ∃ s, Laid q s) (built c o calls).outcome := by
  have hstart : Yields (fun q => ∃ s, Laid q s) (o.start c) := by
    cases o with
    | «from» e => exact .ok ⟨_, Laid.start c e none⟩
    | fromAs e tableAlias =>
      rw [Opening.start, ofEntityAs]
      split_ifs
      · exact .error rfl
      · exact .ok ⟨_, Laid.start c e (some tableAlias)⟩
  rw [built, Rendering.outcome_bind, Rendering.outcome_liftExcept]
  refine hstart.bind ?_
  rintro q ⟨s, hq⟩
  exact hq.yields_run calls

theorem Laid.yields_compileAs {q : Select} {s : Outline} (h : Laid q s) (result : Entity) :
    Yields (fun _ => True) (q.compileAs result).outcome := by
  refine Outline.yields_compile (s := s.supply (q.projection result)) ?_ q.compiler
  rw [h.draft_eq, Outline.draft_supply h.keyed h.headed]

end Select

theorem Statement.yields_compile (c : Compiler) (t : Statement) :
    Yields (fun _ => True) (t.compile c).outcome := by
  cases t with
  | insert e values ignored => exact Outline.yields_compile (Insert.drawn_draft _).draft_eq _
  | update e target calls =>
    cases hfirst : Update.given e target with
    | none =>
      obtain ⟨f, hrefused⟩ := Update.exists_refused hfirst
      rw [hrefused.outcome_update c calls]
      exact hrefused.yields
    | some first =>
      rw [Update.outcome_compile c calls hfirst]
      exact Update.yields_compile (Update.drawn_run (Update.drawn_ofEntity c e) _)
  | delete e target predicates =>
    cases hfirst : Delete.given e target with
    | none =>
      obtain ⟨f, hrefused⟩ := Delete.exists_refused hfirst
      rw [hrefused.outcome_delete c predicates]
      exact hrefused.yields
    | some first =>
      rw [Delete.outcome_compile c predicates hfirst]
      exact Outline.yields_compile (Delete.drawn_run (Delete.drawn_ofEntity c e) _).draft_eq _
  | select o calls result =>
    rw [compile, Rendering.outcome_bind]
    refine (Select.yields_built c o calls).bind ?_
    rintro q ⟨s, hq⟩
    exact hq.yields_compileAs _

/-! ## Procedure calls -/

namespace Procedure

theorem yields_apply {q : Procedure} (h : q.draft.toTree.IsFlat) (call : Call) :
    Yields (fun q => q.draft.toTree.IsFlat) (call.apply q) := by
  cases call with
  | parameter name source => exact .ok (h.add rfl)
  | output name type initial =>
    rw [Call.apply, output]
    simp only
    split_ifs
    · exact .error rfl
    · exact .ok (((h.add rfl).add rfl).add rfl)

theorem yields_run (c : Compiler) (name : String) (calls : List Call) :
    Yields (fun q => q.draft.toTree.IsFlat) (run c name calls) := by
  have hnamed : Yields (fun q => q.draft.toTree.IsFlat) (named c name) := by
    rw [named]
    split_ifs
    · exact .error rfl
    · exact .ok (List.forall_mem_nil _)
  rw [run]
  exact hnamed.bind fun q hq => Yields.foldlM (fun _ call h => yields_apply h call) calls hq

end Procedure

/-- A way to have a statement built and compiled: by calls, or by an example object. -/
inductive Program where
  | statement (t : Statement)
  | updateExample
  | deleteExample
  | table (s : Schema) (requests : List Table.Request) (finish : Table.Finish)
  | procedure (name : String) (calls : List Procedure.Call)

def Program.compile (c : Compiler) : Program → Rendering Compiled
  | .statement t => t.compile c
  | .updateExample => do
    let q ← (liftM Update.ofExample : Rendering Update)
    q.compile
  | .deleteExample => do
    let q ← (liftM Delete.ofExample : Rendering Delete)
    q.compile
  | .table s requests finish => Table.finished c s requests finish
  | .procedure name calls => do
    let q ← (liftM (Procedure.run c name calls) : Rendering Procedure)
    q.compile

theorem Program.yields_compile (c : Compiler) (p : Program) :
    Yields (fun _ => True) (p.compile c).outcome := by
  cases p with
  | statement t => exact t.yields_compile c
  | updateExample | deleteExample => exact .error rfl
  | table s requests finish => exact Table.yields_finished c s requests finish
  | procedure name calls =>
    rw [compile, Rendering.outcome_bind, Rendering.outcome_liftExcept]
    exact (Procedure.yields_run c name calls).bind fun q hq =>
      q.compiler.yields_compile hq.not_stray

/-- A tree of a statement is refused if there is a list in it, at any depth, that cannot be written,
and it is refused for the first of these lists, depth first. Calls never build such a tree. -/
theorem refused_iff_stray :
    (∀ (c : Compiler) (t : Tree), t.shape = .statement →
      ((∃ f, (c.compile t).outcome = .error f) ↔ ∃ g ∈ t.flatten, g.isStray = true) ∧
      ∀ g, t.flatten.find? Part.isStray = some g →
        (c.compile t).outcome = .error (.unknownList g.tag)) ∧
    ∀ (c : Compiler) (p : Program) (tag : Tag), (p.compile c).outcome ≠ .error (.unknownList tag) := by
  refine ⟨fun c t ht => ?_, fun c p => (p.yields_compile c).ne_unknownList⟩
  have hfault := c.fault?_compile ht
  constructor
  · calc (∃ f, (c.compile t).outcome = .error f)
        ↔ (c.compile t).fault?.isSome := by
          simp only [Option.isSome_iff_exists, Rendering.fault?_eq_some]
      _ ↔ (t.flatten.find? Part.isStray).isSome := by
          rw [hfault, Part.strayFault?, Option.isSome_map]
      _ ↔ ∃ g ∈ t.flatten, g.isStray = true := List.find?_isSome
  · intro g hg
    rw [← Rendering.fault?_eq_some, hfault, Part.strayFault?, hg]
    rfl

/-- Two lists that cannot be written, the first of them in a clause of a list, behind a list that can
be written. -/
theorem refused_iff_stray_nested :
    let having : Part := .list 4 .having [.text 5 .plain "x"]
    let t : Tree := { parts := [
      .text 1 .plain "WITH",
      .list 2 .values [.clause 3 .whereClause none none [.text 6 .plain "a", having], .list 7 .groupBy],
      .list 8 .orderBy] }
    t.shape = .statement ∧ t.flatten.find? Part.isStray = some having ∧
      (({} : Compiler).compile t).outcome = .error (.unknownList .having) := by
  intro having t
  have hfirst : t.flatten.find? Part.isStray = some having := rfl
  exact ⟨rfl, hfirst, (refused_iff_stray.1 {} t rfl).2 having hfirst⟩

end SqlComposer
