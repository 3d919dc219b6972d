import SqlComposer.Proofs.Statement.Outlined

/-!
# Statements and the compilers that write them

Calls build a statement without asking the compiler that comes with it. So all compilers refuse a
statement with one fault, or all of them write it from one outline.
-/
namespace SqlComposer

namespace Update

def withCompiler (c : Compiler) (q : Update) : Update :=
  { q with compiler := c }

theorem apply_withCompiler (c : Compiler) (q : Update) (call : Call) :
    (call.apply (q.withCompiler c)).value = (call.apply q).value.withCompiler c := by
  cases call <;> rfl

theorem run_withCompiler (c : Compiler) (q : Update) (calls : List Call) :
    ((q.withCompiler c).run calls).value = (q.run calls).value.withCompiler c := by
  induction calls generalizing q with
  | nil => rfl
  | cons call calls ih =>
    simp only [run, Reading.value_bind, apply_withCompiler]
    exact ih _

theorem compile_withCompiler (c : Compiler) (q : Update) :
    (q.withCompiler c).compile.outcome =
      if q.assignmentCount = 0 then
        .error (.missingArgument "set" ("UPDATE " ++ q.schema.name ++ " has no assignments"))
      else (c.compile q.draft.toTree).outcome :=
  apply_ite Rendering.outcome ..

end Update

namespace Delete

def withCompiler (c : Compiler) (q : Delete) : Delete :=
  { q with compiler := c }

theorem run_withCompiler (c : Compiler) (q : Delete) (predicates : List Expr) :
    ((q.withCompiler c).run predicates).value = (q.run predicates).value.withCompiler c := by
  induction predicates generalizing q with
  | nil => rfl
  | cons p predicates ih => exact ih (q.filter p).value

end Delete

namespace Select

def withCompiler (c : Compiler) (q : Select) : Select :=
  { q with compiler := c }

variable (c : Compiler) (q : Select)

theorem orderWith_withCompiler (first next : Tag) (field : Expr) :
    ((q.withCompiler c).orderWith first next field).value =
      (q.orderWith first next field).value.withCompiler c := by
  have hcontains (tag : Tag) : (q.withCompiler c).draft.contains tag = q.draft.contains tag := rfl
  simp only [orderWith, hcontains]
  split_ifs <;> rfl

theorem member_withCompiler (source : Expr) :
    (q.withCompiler c).member source = q.member source := rfl

theorem apply_withCompiler (call : Call) :
    (call.apply (q.withCompiler c)).outcome = (call.apply q).outcome.map (withCompiler c) := by
  cases call with
  | join kind => cases kind <;> rfl
  | joinAs joined tableAlias on =>
    simp only [Call.apply, joinAs]
    split_ifs <;> rfl
  | filter | andFilter | orFilter | ignore | forType => rfl
  | orderBy direction field =>
    rw [Call.apply_orderBy, Call.apply_orderBy]
    exact congrArg Except.ok (q.orderWith_withCompiler c _ _ field)
  | thenBy direction => cases direction <;> rfl
  | groupBy field =>
    simp only [Call.apply, groupBy, Rendering.outcome_bind, member_withCompiler]
    cases (q.member field).outcome <;> rfl
  | map source =>
    simp only [Call.apply, map, Rendering.outcome_bind, member_withCompiler]
    cases (q.member source).outcome <;> rfl
  | mapAs source name =>
    simp only [Call.apply, mapAs]
    split_ifs
    · rfl
    · simp only [Rendering.outcome_bind, member_withCompiler]
      cases (q.member source).outcome <;> rfl
  | mapWith source name converter =>
    simp only [Call.apply, mapWith, Rendering.outcome_bind, member_withCompiler]
    cases (q.member source).outcome <;> rfl

theorem run_withCompiler (calls : List Call) :
    ((q.withCompiler c).run calls).outcome = (q.run calls).outcome.map (withCompiler c) := by
  induction calls generalizing q with
  | nil => rfl
  | cons call calls ih =>
    rw [run, run, Rendering.outcome_bind, Rendering.outcome_bind, apply_withCompiler]
    cases (call.apply q).outcome with
    | error => rfl
    | ok p => exact ih p

theorem built_withCompiler (c c' : Compiler) (o : Opening) (calls : List Call) :
    (built c o calls).outcome = (built c' o calls).outcome.map (withCompiler c) := by
  have hstart : o.start c = (o.start c').map (withCompiler c) := by
    cases o with
    | «from» => rfl
    | fromAs e tableAlias =>
      rw [Opening.start, Opening.start, ofEntityAs, ofEntityAs]
      split_ifs <;> rfl
  simp only [built, Rendering.outcome_bind, Rendering.outcome_liftExcept, hstart]
  cases o.start c' with
  | error => rfl
  | ok q => exact q.run_withCompiler c calls

end Select

namespace Statement

/-- All compilers refuse a statement with one fault, or they write it from one outline. -/
def Portable (t : Statement) : Prop :=
  (∃ f, ∀ c, (t.compile c).outcome = .error f) ∨
    ∃ s : Outline, s.Each Block.Settled ∧ ∀ c, (t.compile c).outcome = .ok (s.compiled c)

theorem portable_insert (e : Entity) (values : List Value) (ignored : List String) :
    (insert e values ignored).Portable := by
  let q : Insert := { Insert.ofInstance {} e values with ignored := [] ++ ignored }
  let s : Outline := q.pairs.foldl Insert.addToOutline q.outline
  refine .inr ⟨s, ?_, fun c => ?_⟩
  · exact (Insert.binds_addPairs q.drawn_opening q.binds_outline q.pairs).settled
  · have hcompile : ((insert e values ignored).compile c).outcome =
        (c.compile q.draft.toTree).outcome := by
      rw [compile, Insert.foldl_ignore]
      rfl
    rw [hcompile, q.drawn_draft.draft_eq]
    exact s.outcome_compile c

theorem portable_update (e : Entity) (target : Option Target) (calls : List Update.Call) :
    (update e target calls).Portable := by
  cases hfirst : Update.given e target with
  | none =>
    obtain ⟨f, hrefused⟩ := Update.exists_refused hfirst
    exact .inl ⟨f, fun c => hrefused.outcome_update c calls⟩
  | some first =>
    let q := ((Update.ofEntity {} e).run (first ++ calls)).value
    let s := (Update.ofEntity {} e).layOutAll (Update.outline e) (first ++ calls)
    have hdrawn : Drawn q.draft s [.assignments] :=
      Update.drawn_run (Update.drawn_ofEntity {} e) _
    have hcompile (c : Compiler) :
        ((update e target calls).compile c).outcome = (q.withCompiler c).compile.outcome := by
      rw [Update.outcome_compile c calls hfirst, ← Update.run_withCompiler]
      rfl
    simp only [Portable, hcompile, Update.compile_withCompiler, hdrawn.draft_eq]
    split_ifs
    · exact .inl ⟨_, fun _ => rfl⟩
    · exact .inr ⟨s, (Update.binds_layOutAll (Update.drawn_ofEntity {} e) (Update.binds_outline e)
        _).settled, s.outcome_compile⟩

theorem portable_delete (e : Entity) (target : Option Target) (predicates : List Expr) :
    (delete e target predicates).Portable := by
  cases hfirst : Delete.given e target with
  | none =>
    obtain ⟨f, hrefused⟩ := Delete.exists_refused hfirst
    exact .inl ⟨f, fun c => hrefused.outcome_delete c predicates⟩
  | some first =>
    let q := ((Delete.ofEntity {} e).run (first ++ predicates)).value
    let s := (Delete.ofEntity {} e).layOutAll (Delete.outline e) (first ++ predicates)
    have hdrawn : Drawn q.draft s [] := Delete.drawn_run (Delete.drawn_ofEntity {} e) _
    refine .inr ⟨s, (Delete.binds_layOutAll (Delete.binds_outline e) _).settled, fun c => ?_⟩
    have hcompile : ((delete e target predicates).compile c).outcome =
        (c.compile q.draft.toTree).outcome := by
      rw [Delete.outcome_compile c predicates hfirst]
      exact congrArg (fun q : Delete => q.compile.outcome)
        (Delete.run_withCompiler c (Delete.ofEntity {} e) (first ++ predicates))
    rw [hcompile, hdrawn.draft_eq]
    exact s.outcome_compile c

theorem portable_select (o : Select.Opening) (calls : List Select.Call) (result : Option Entity) :
    (select o calls result).Portable := by
  have hcompile (c : Compiler) : ((select o calls result).compile c).outcome =
      ((Select.built {} o calls).outcome.map (Select.withCompiler c)).bind fun q =>
        (q.compileAs (result.getD q.entity)).outcome := by
    rw [compile, Rendering.outcome_bind, Select.built_withCompiler c {}]
    rfl
  cases hq : (Select.built {} o calls).outcome with
  | error f =>
    refine .inl ⟨f, fun c => ?_⟩
    rw [hcompile, hq]
    rfl
  | ok q =>
    obtain ⟨-, hrun⟩ := Select.built_eq_ok hq
    obtain ⟨s, hlaid, hbinds, -⟩ := (Select.Laid.start {} o.entity o.tableAlias).exists_binds
      (Select.binds_opening o.entity o.tableAlias) hrun
    let fields := q.projection (result.getD q.entity)
    have hdraft : q.draft.supplyFields fields = (s.supply fields).draft := by
      rw [hlaid.draft_eq, Outline.draft_supply hlaid.keyed hlaid.headed]
    refine .inr ⟨s.supply fields, (hbinds.supply _).settled, fun c => ?_⟩
    rw [hcompile, hq]
    exact (congrArg (fun d : Draft => (c.compile d.toTree).outcome) hdraft).trans
      ((s.supply fields).outcome_compile c)

theorem portable (t : Statement) : t.Portable := by
  cases t with
  | insert e values ignored => exact portable_insert e values ignored
  | update e target calls => exact portable_update e target calls
  | delete e target predicates => exact portable_delete e target predicates
  | select o calls result => exact portable_select o calls result

end Statement

end SqlComposer
