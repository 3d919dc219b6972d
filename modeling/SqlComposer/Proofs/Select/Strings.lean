import SqlComposer.Proofs.Outline.Clean
import SqlComposer.Proofs.Select.Tables

/-!
# Queries with other strings

Calls with other strings make the same query, with those strings. A query over names and values
without apostrophes has none outside of its literals.
-/
namespace SqlComposer.Select

variable (f : String → String)

def mapStrings (q : Select) : Select :=
  { q with draft := q.draft.mapStrings f }

def Call.mapStrings : Call → Call
  | .join kind joined on => .join kind joined (on.mapStrings f)
  | .joinAs joined tableAlias on => .joinAs joined tableAlias (on.mapStrings f)
  | .filter predicate => .filter (predicate.mapStrings f)
  | .andFilter predicate => .andFilter (predicate.mapStrings f)
  | .orFilter predicate => .orFilter (predicate.mapStrings f)
  | .orderBy direction field => .orderBy direction (field.mapStrings f)
  | .thenBy direction field => .thenBy direction (field.mapStrings f)
  | .groupBy field => .groupBy (field.mapStrings f)
  | .map source => .map (source.mapStrings f)
  | .mapAs source name => .mapAs (source.mapStrings f) name
  | .mapWith source name converter => .mapWith (source.mapStrings f) name converter
  | .ignore member => .ignore member
  | .forType result => .forType result

variable {f} (q : Select)

theorem joinWith_mapStrings (tag : Tag) (joined : Entity) (tableAlias : Option String)
    (on : Expr) :
    ((q.mapStrings f).joinWith tag joined tableAlias (on.mapStrings f)).value =
      (q.joinWith tag joined tableAlias on).value.mapStrings f := by
  have hsource : (q.mapStrings f).draft.insertSource tag joined.name tableAlias
        (fun p => p.tag.followsSources) =
      (q.draft.insertSource tag joined.name tableAlias fun p => p.tag.followsSources).mapStrings f :=
    q.draft.insertSource_mapParameters (fun p => by rw [Part.tag_mapParameters]) _ _ _
  simp only [joinWith, Reading.value_bind, Reading.value_pure, hsource,
    Draft.extendClause_mapStrings]
  rfl

theorem filter_mapStrings (predicate : Expr) :
    ((q.mapStrings f).filter (predicate.mapStrings f)).value =
      (q.filter predicate).value.mapStrings f := by
  have hdraft : ((q.mapStrings f).draft.addRestriction q.scope (predicate.mapStrings f)
        fun p => p.tag.followsWhere).value =
      (q.draft.addRestriction q.scope predicate fun p => p.tag.followsWhere).value.mapStrings f :=
    q.draft.addRestriction_mapStrings _ _ fun p => by rw [Part.mapStrings, Part.tag_mapParameters]
  have hkey (d : Draft) : ((d.mapStrings f).partsOf .whereClause).head?.map Part.key =
      (d.partsOf .whereClause).head?.map Part.key := by
    have hparts : (d.mapStrings f).partsOf .whereClause = _ :=
      d.toTree.partsOf_mapParameters .whereClause
    rw [hparts, List.head?_map, Option.map_map]
    simp only [Function.comp_def, Part.key_mapParameters]
  simp only [filter, Reading.value_bind, Reading.value_pure]
  rw [show (q.mapStrings f).scope = q.scope from rfl, hdraft, hkey]
  rfl

theorem chain_mapStrings (tag : Tag) (predicate : Expr) :
    ((q.mapStrings f).chain tag (predicate.mapStrings f)).value =
      (q.chain tag predicate).value.mapStrings f := by
  have hdraft : ((q.mapStrings f).draft.nestExpression q.scope (predicate.mapStrings f) tag
        fun p => some p.key == q.predicateClause).value =
      (q.draft.nestExpression q.scope predicate tag
        fun p => some p.key == q.predicateClause).value.mapStrings f :=
    q.draft.nestExpression_mapStrings _ _ _ fun p => by
      rw [Part.mapStrings, Part.key_mapParameters]
  simp only [chain, Reading.value_bind, Reading.value_pure]
  exact congrArg (fun draft => { q with draft }) hdraft

theorem nestOrder_mapStrings (tag : Tag) (field : Expr) :
    ((q.mapStrings f).nestOrder tag (field.mapStrings f)).value =
      (q.nestOrder tag field).value.mapStrings f := by
  have hdraft : ((q.mapStrings f).draft.nestExpression q.scope (field.mapStrings f) tag
        fun p => p.tag.startsOrder).value =
      (q.draft.nestExpression q.scope field tag fun p => p.tag.startsOrder).value.mapStrings f :=
    q.draft.nestExpression_mapStrings _ _ _ fun p => by
      rw [Part.mapStrings, Part.tag_mapParameters]
  simp only [nestOrder, Reading.value_bind, Reading.value_pure]
  exact congrArg (fun draft => { q with draft }) hdraft

theorem orderWith_mapStrings (first next : Tag) (field : Expr) :
    ((q.mapStrings f).orderWith first next (field.mapStrings f)).value =
      (q.orderWith first next field).value.mapStrings f := by
  have hcontains (tag : Tag) : (q.mapStrings f).draft.contains tag = q.draft.contains tag :=
    q.draft.toTree.contains_mapParameters tag
  simp only [orderWith, hcontains]
  split_ifs
  · exact q.nestOrder_mapStrings next field
  · simp only [Reading.value_bind, Reading.value_pure]
    exact congrArg (fun draft => { q with draft })
      (q.draft.addExpression_mapStrings q.scope field first)

theorem member_mapStrings (e : Expr) :
    ((q.mapStrings f).member (e.mapStrings f)).result? = (q.member e).result? := by
  rw [member, member, show (q.mapStrings f).scope = q.scope from rfl, Scope.field?_mapStrings]
  cases q.scope.field? e with
  | some r => rfl
  | none => rfl

theorem addField_mapStrings (r : ColumnRef) :
    { q.mapStrings f with draft := (q.mapStrings f).draft.addField r } =
      mapStrings f { q with draft := q.draft.addField r } :=
  congrArg (fun draft => { q with draft }) (q.draft.addField_mapParameters r)

theorem groupBy_mapStrings (field : Expr) :
    ((q.mapStrings f).groupBy (field.mapStrings f)).result? =
      (q.groupBy field).result?.map (mapStrings f) := by
  have hcontains : (q.mapStrings f).draft.contains .groupBy = q.draft.contains .groupBy :=
    q.draft.toTree.contains_mapParameters .groupBy
  have hopen : (q.mapStrings f).draft.spend 1
        ((q.mapStrings f).draft.addAheadOf (.list q.draft.nextKey .groupBy) fun p => p.tag.isOrder) =
      (q.draft.spend 1
        (q.draft.addAheadOf (.list q.draft.nextKey .groupBy) fun p => p.tag.isOrder)).mapStrings f :=
    congrArg (q.draft.mapStrings f |>.spend 1) (q.draft.toTree.addAheadOf_mapParameters
      (fun p => by rw [Part.tag_mapParameters]) (.list q.draft.nextKey .groupBy))
  have hadd (d : Draft) (r : ColumnRef) : (d.mapStrings f).spend 1
        ((d.mapStrings f).addToLast (.field d.nextKey r) .groupBy) =
      (d.spend 1 (d.addToLast (.field d.nextKey r) .groupBy)).mapStrings f :=
    congrArg (d.mapStrings f |>.spend 1)
      (d.toTree.addToLast_mapParameters (.field d.nextKey r) .groupBy)
  simp only [groupBy, Rendering.result?_bind, member_mapStrings, Rendering.result?_pure]
  cases (q.member field).result? with
  | none => rfl
  | some r =>
    simp only [Option.bind_some, Option.map_some, hcontains]
    refine congrArg some (congrArg (fun draft => { q with draft }) ?_)
    split_ifs
    · exact hadd q.draft r
    · exact (congrArg (fun d : Draft => d.spend 1 (d.addToLast (.field d.nextKey r) .groupBy))
        hopen).trans (hadd _ r)

theorem apply_mapStrings (call : Call) :
    ((call.mapStrings f).apply (q.mapStrings f)).result? =
      (call.apply q).result?.map (mapStrings f) := by
  cases call with
  | join kind joined on =>
    rw [Call.mapStrings, Call.apply_join, Call.apply_join]
    exact congrArg some (q.joinWith_mapStrings kind.tag joined none on)
  | joinAs joined tableAlias on =>
    simp only [Call.mapStrings, Call.apply, joinAs]
    split_ifs
    · rfl
    · exact congrArg some (q.joinWith_mapStrings .join joined (some tableAlias) on)
  | filter predicate => exact congrArg some (q.filter_mapStrings predicate)
  | andFilter predicate => exact congrArg some (q.chain_mapStrings .andClause predicate)
  | orFilter predicate => exact congrArg some (q.chain_mapStrings .orClause predicate)
  | orderBy d field =>
    rw [Call.mapStrings, Call.apply_orderBy, Call.apply_orderBy]
    exact congrArg some (q.orderWith_mapStrings d.tag d.joint.tag field)
  | thenBy d field =>
    rw [Call.mapStrings, Call.apply_thenBy, Call.apply_thenBy]
    exact congrArg some (q.nestOrder_mapStrings d.joint.tag field)
  | groupBy field => exact q.groupBy_mapStrings field
  | map source =>
    simp only [Call.mapStrings, Call.apply, map, Rendering.result?_bind, member_mapStrings,
      Rendering.result?_pure]
    cases (q.member source).result? with
    | none => rfl
    | some r => exact congrArg some (q.addField_mapStrings r)
  | mapAs source name =>
    simp only [Call.mapStrings, Call.apply, mapAs]
    split_ifs
    · rfl
    · simp only [Rendering.result?_bind, member_mapStrings, Rendering.result?_pure]
      cases (q.member source).result? with
      | none => rfl
      | some r => exact congrArg some (q.addField_mapStrings _)
  | mapWith source name converter =>
    simp only [Call.mapStrings, Call.apply, mapWith, Rendering.result?_bind, member_mapStrings,
      Rendering.result?_pure]
    cases (q.member source).result? with
    | none => rfl
    | some r => exact congrArg some (q.addField_mapStrings _)
  | ignore => rfl
  | forType result =>
    refine congrArg some (congrArg (fun draft =>
      { q with draft, entity := result, tableAlias := none }) ?_)
    have hsupply : (q.draft.mapStrings f).supplyFields (q.projection result) = _ :=
      q.draft.supplyFields_mapParameters (q.projection result)
    exact (congrArg Draft.closeSelect hsupply).trans (Draft.closeSelect_mapParameters _)

theorem run_mapStrings (calls : List Call) :
    ((q.mapStrings f).run (calls.map (Call.mapStrings f))).result? =
      (q.run calls).result?.map (mapStrings f) := by
  induction calls generalizing q with
  | nil => rfl
  | cons call calls ih =>
    rw [List.map_cons, run, run, Rendering.result?_bind, Rendering.result?_bind,
      apply_mapStrings]
    cases (call.apply q).result? with
    | none => rfl
    | some p => exact ih p

end SqlComposer.Select
