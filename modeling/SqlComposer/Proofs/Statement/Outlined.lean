import SqlComposer.Proofs.Select.Bound
import SqlComposer.Proofs.Statement.Strings

/-!
# Statements as outlines

Whatever strings are filled into a statement, it is refused, or it is compiled from one outline with
those strings. The outline binds the strings of the statement.
-/
namespace SqlComposer

theorem Outline.result?_compile (s : Outline) (c : Compiler) (f : String → String) :
    (c.compile (s.draft.mapStrings f).toTree).result? = some ((s.mapStrings f).compiled c) := by
  rw [← draft_mapStrings, Rendering.result?_eq_some]
  exact (s.mapStrings f).outcome_compile c

namespace Statement

def mapStrings (f : String → String) : Statement → Statement
  | .insert e values ignored => .insert e (values.map (Value.mapString f)) ignored
  | .update e target calls =>
    .update e (target.map (Target.mapStrings f)) (calls.map (Update.Call.mapStrings f))
  | .delete e target predicates =>
    .delete e (target.map (Target.mapStrings f)) (predicates.map (Expr.mapStrings f))
  | .select o calls result => .select o (calls.map (Select.Call.mapStrings f)) result

/-- No identifier has an apostrophe, and no decimal or raw text has one. -/
def Clean : Statement → Prop
  | .insert e values _ => e.Clean ∧ ∀ v ∈ values, v.Clean
  | .update e target calls =>
    e.Clean ∧ (∀ t ∈ target, ∀ v ∈ t.values, v.Clean) ∧ ∀ call ∈ calls, call.Clean
  | .delete e target predicates =>
    e.Clean ∧ (∀ t ∈ target, ∀ v ∈ t.values, v.Clean) ∧ ∀ p ∈ predicates, p.Clean
  | .select o calls result =>
    o.Clean ∧ (∀ call ∈ calls, call.Clean) ∧ ∀ e ∈ result, e.Clean

/-- The strings that a statement binds: those of the members that it writes, of what it assigns and
of its expressions. -/
def strings : Statement → List String
  | .insert e values ignored =>
    (Insert.listed e values ignored).filterMap fun pair => pair.2.string?
  | .update e target calls =>
    ((Update.given e target).getD [] ++ calls).flatMap Update.Call.strings
  | .delete e target predicates =>
    ((Delete.given e target).getD [] ++ predicates).flatMap Expr.strings
  | .select _ calls _ => calls.flatMap Select.Call.strings

/-- The outline behind a statement, whatever strings are filled in. -/
structure Outlined (c : Compiler) (t : Statement) (s : Outline) : Prop where
  binds : s.Binds t.strings
  clean : t.Clean → s.Clean
  compiles : ∀ f, ((t.mapStrings f).compile c).result? = some ((s.mapStrings f).compiled c)

def Refused (c : Compiler) (t : Statement) : Prop :=
  ∀ f, ((t.mapStrings f).compile c).result? = none

variable {c : Compiler}

theorem outlined_insert (c : Compiler) (e : Entity) (values : List Value)
    (ignored : List String) : ∃ s, (insert e values ignored).Outlined c s := by
  let q : Insert := { Insert.ofInstance c e values with ignored := [] ++ ignored }
  refine ⟨q.pairs.foldl Insert.addToOutline q.outline, ?_, fun ht => ?_, fun f => ?_⟩
  · have hbinds := Insert.binds_addPairs q.drawn_opening q.binds_outline q.pairs
    have hstrings : (q.pairs.filterMap fun pair => pair.2.string?) =
        strings (insert e values ignored) := by
      rw [strings, ← Insert.map_pairs c, List.filterMap_map]
      rfl
    rwa [List.nil_append, hstrings] at hbinds
  · have hpairs : ∀ pair ∈ q.pairs, Text.Clean pair.1.memberName ∧ pair.2.Clean := by
      intro pair hpair
      have hmem := List.of_mem_zip (List.mem_filter.1 hpair).1
      exact ⟨ht.1.field hmem.1, ht.2 _ hmem.2⟩
    exact Insert.clean_addPairs (Insert.clean_outline ht.1.name) hpairs
  · rw [← Outline.result?_compile, ← q.drawn_draft.draft_eq, mapStrings, compile,
      Insert.foldl_ignore]
    exact congrArg (fun d : Draft => (c.compile d.toTree).result?) (q.draft_mapStrings (f := f))

theorem outlined_update (c : Compiler) (e : Entity) (target : Option Target)
    (calls : List Update.Call) :
    (update e target calls).Refused c ∨ ∃ s, (update e target calls).Outlined c s := by
  cases hfirst : Update.given e target with
  | none =>
    refine .inl fun f => Update.result?_compile_of_none c _ ?_
    rw [Update.given_mapStrings, hfirst, Option.map_none]
  | some first =>
    have hcompile (f : String → String) :
        ((mapStrings f (update e target calls)).compile c).result? =
          (((Update.ofEntity c e).run (first ++ calls)).value.mapStrings f).compile.result? := by
      have hgiven : Update.given e (target.map (Target.mapStrings f)) =
          some (first.map (Update.Call.mapStrings f)) := by
        rw [Update.given_mapStrings, hfirst, Option.map_some]
      rw [← Update.run_mapStrings, List.map_append, mapStrings, Rendering.result?,
        Update.outcome_compile c _ hgiven]
      rfl
    let s := (Update.ofEntity c e).layOutAll (Update.outline e) (first ++ calls)
    have hdrawn : Drawn ((Update.ofEntity c e).run (first ++ calls)).value.draft s _ :=
      Update.drawn_run (Update.drawn_ofEntity c e) _
    by_cases hcount : ((Update.ofEntity c e).run (first ++ calls)).value.assignmentCount = 0
    · refine .inl fun f => ?_
      rw [hcompile, Update.compile, if_pos ((Update.assignmentCount_mapStrings _).trans hcount)]
      rfl
    · refine .inr ⟨s, ?_, fun ht => ?_, fun f => ?_⟩
      · rw [strings, hfirst, Option.getD_some, ← List.nil_append (List.flatMap _ _)]
        exact Update.binds_layOutAll (Update.drawn_ofEntity c e) (Update.binds_outline e) _
      · obtain ⟨he, htarget, hcalls⟩ := ht
        exact Update.clean_layOutAll (Update.clean_outline he) he.name
          (List.forall_mem_append.2 ⟨Update.clean_given he htarget hfirst, hcalls⟩)
      · rw [hcompile, Update.compile,
          if_neg fun h => hcount ((Update.assignmentCount_mapStrings _).symm.trans h),
          ← Outline.result?_compile, ← hdrawn.draft_eq]
        exact congrArg (fun c : Compiler => (c.compile _).result?)
          (Update.run_same (Update.ofEntity c e) (first ++ calls)).1

theorem outlined_delete (c : Compiler) (e : Entity) (target : Option Target)
    (predicates : List Expr) :
    (delete e target predicates).Refused c ∨ ∃ s, (delete e target predicates).Outlined c s := by
  cases hfirst : Delete.given e target with
  | none =>
    refine .inl fun f => Delete.result?_compile_of_none c _ ?_
    rw [Delete.given_mapStrings, hfirst, Option.map_none]
  | some first =>
    let s := (Delete.ofEntity c e).layOutAll (Delete.outline e) (first ++ predicates)
    have hdrawn : Drawn ((Delete.ofEntity c e).run (first ++ predicates)).value.draft s _ :=
      Delete.drawn_run (Delete.drawn_ofEntity c e) _
    refine .inr ⟨s, ?_, fun ht => ?_, fun f => ?_⟩
    · rw [strings, hfirst, Option.getD_some, ← List.nil_append (List.flatMap _ _)]
      exact Delete.binds_layOutAll (Delete.binds_outline e) _
    · obtain ⟨he, htarget, hpredicates⟩ := ht
      exact Delete.clean_layOutAll (Delete.clean_outline he) he.name
        (List.forall_mem_append.2 ⟨Delete.clean_given he htarget hfirst, hpredicates⟩)
    · have hgiven : Delete.given e (target.map (Target.mapStrings f)) =
          some (first.map (Expr.mapStrings f)) := by
        rw [Delete.given_mapStrings, hfirst, Option.map_some]
      have hrun := Delete.run_mapStrings (f := f) (Delete.ofEntity c e) (first ++ predicates)
      rw [List.map_append] at hrun
      have hcompile : ((mapStrings f (delete e target predicates)).compile c).result? =
          (((Delete.ofEntity c e).run (first ++ predicates)).value.mapStrings f).compile.result? := by
        rw [← hrun, mapStrings, Rendering.result?, Delete.outcome_compile c _ hgiven]
        rfl
      rw [hcompile, ← Outline.result?_compile, ← hdrawn.draft_eq]
      exact congrArg (fun c : Compiler => (c.compile _).result?)
        (Delete.run_same (Delete.ofEntity c e) (first ++ predicates)).1

theorem outlined_select (c : Compiler) (o : Select.Opening) (calls : List Select.Call)
    (result : Option Entity) :
    (select o calls result).Refused c ∨ ∃ s, (select o calls result).Outlined c s := by
  have hbuilt (f : String → String) :
      (Select.built c o (calls.map (Select.Call.mapStrings f))).result? =
        (Select.built c o calls).result?.map (Select.mapStrings f) := by
    simp only [Select.built, Rendering.result?_bind, Rendering.result?_liftExcept]
    cases hstart : o.start c with
    | error => rfl
    | ok q =>
      obtain ⟨rfl, -⟩ := Select.Opening.start_eq_ok hstart
      have hself : (Select.start c o.entity o.tableAlias).mapStrings f =
          Select.start c o.entity o.tableAlias := by cases o.tableAlias <;> rfl
      have hrun := Select.run_mapStrings (f := f) (Select.start c o.entity o.tableAlias) calls
      rw [hself] at hrun
      exact hrun
  cases hq : (Select.built c o calls).result? with
  | none =>
    refine .inl fun f => ?_
    simp only [mapStrings, compile, Rendering.result?_bind, hbuilt, hq, Option.map_none,
      Option.bind_none]
  | some q =>
    obtain ⟨-, hrun⟩ := Select.built_eq_ok (Rendering.result?_eq_some.1 hq)
    obtain ⟨s, hlaid, hbinds, hclean⟩ := (Select.Laid.start c o.entity o.tableAlias).exists_binds
      (Select.binds_opening o.entity o.tableAlias) hrun
    refine .inr ⟨s.supply (q.projection (result.getD q.entity)), hbinds.supply _, fun ht => ?_,
      fun f => ?_⟩
    · obtain ⟨ho, hcalls, hresult⟩ := ht
      obtain ⟨hq, hs⟩ := hclean (.start c ho) (Select.clean_opening ho) hcalls
      have hentity : (result.getD q.entity).Clean := by
        cases result with
        | none => exact hq.entity
        | some e => exact hresult e rfl
      exact hs.supply (hq.projection hentity)
    · rw [← Outline.result?_compile, ← Outline.draft_supply hlaid.keyed hlaid.headed,
        ← hlaid.draft_eq]
      have hcompiler : q.compiler = c := Select.run_compiler hrun
      simp only [mapStrings, compile, Rendering.result?_bind, hbuilt, hq, Option.map_some,
        Option.bind_some, Select.compileAs]
      rw [← hcompiler]
      exact congrArg (fun d : Draft => (q.compiler.compile d.toTree).result?)
        (q.draft.supplyFields_mapParameters (q.projection (result.getD q.entity)))

/-- A statement is refused, or compiled from an outline, whatever strings are filled in. -/
theorem refused_or_outlined (c : Compiler) (t : Statement) :
    t.Refused c ∨ ∃ s, t.Outlined c s := by
  cases t with
  | insert e values ignored => exact .inr (outlined_insert c e values ignored)
  | update e target calls => exact outlined_update c e target calls
  | delete e target predicates => exact outlined_delete c e target predicates
  | select o calls result => exact outlined_select c o calls result

end Statement

end SqlComposer
