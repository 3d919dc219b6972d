import SqlComposer.Proofs.Outline.Query
import SqlComposer.Proofs.Select.Call

/-!
# Queries laid out

A query under construction is laid out as an outline, whatever calls it took: every call that
succeeds changes the outline in one place.
-/
namespace SqlComposer.Select

theorem JoinKind.frame?_tag (k : JoinKind) : k.tag.frame? = none := by
  cases k <;> rfl

theorem Direction.frame?_tag (d : Direction) : d.tag.frame? = none := by
  cases d <;> rfl

def Direction.joint : Direction → Joint
  | .ascending => .thenBy
  | .descending => .thenByDesc

namespace Call

def mapped? (scope : Scope) : Call → Option ColumnRef
  | .map source => scope.field? source
  | .mapAs source name => (scope.field? source).map fun f => { f with resultAlias := some name }
  | .mapWith source name converter => (scope.field? source).map fun f =>
    match name.filter fun s => s ≠ "" with
    | some s => { f with resultAlias := some s, converter := some converter }
    | none => { f with converter := some converter }
  | _ => none

theorem apply_join (q : Select) (kind : JoinKind) (joined : Entity) (on : Expr) :
    (Call.join kind joined on).apply q =
      ExceptT.lift (q.joinWith kind.tag joined none on) := by
  cases kind <;> rfl

theorem apply_orderBy (q : Select) (d : Direction) (field : Expr) :
    (Call.orderBy d field).apply q = ExceptT.lift (q.orderWith d.tag d.joint.tag field) := by
  cases d <;> rfl

theorem apply_thenBy (q : Select) (d : Direction) (field : Expr) :
    (Call.thenBy d field).apply q = ExceptT.lift (q.nestOrder d.joint.tag field) := by
  cases d <;> rfl

def layOut (q : Select) (s : Outline) : Call → Outline
  | .join kind joined on =>
    s.join kind.tag kind.frame?_tag joined.name none
      (Scope.atoms { entity := some joined.name } on).value
  | .joinAs joined tableAlias on =>
    s.join .join rfl joined.name (some tableAlias)
      (Scope.atoms { entity := some joined.name, tableAlias := some tableAlias } on).value
  | .filter predicate => s.restrict Tag.followsWhere (q.scope.atoms predicate).value
  | .andFilter predicate =>
    s.nest (fun b => some b.key == q.predicateClause) .and (q.scope.atoms predicate).value
  | .orFilter predicate =>
    s.nest (fun b => some b.key == q.predicateClause) .or (q.scope.atoms predicate).value
  | .orderBy direction field =>
    s.order direction.tag direction.frame?_tag direction.joint (q.scope.atoms field).value
  | .thenBy direction field =>
    s.nest (fun b => b.tag.startsOrder) direction.joint (q.scope.atoms field).value
  | .groupBy field =>
    match q.scope.field? field with
    | some f => s.openGrouping.enter .groupBy fun key => .column key f
    | none => s
  | .ignore _ => s
  | .forType result => (s.supply (q.projection result)).closeSelect
  | call =>
    match call.mapped? q.scope with
    | some f => s.enter .select fun key => .column key f
    | none => s

theorem layOut_mapped {q : Select} {call : Call} {f : ColumnRef} (hf : call.mapped? q.scope = some f)
    (s : Outline) : call.layOut q s = s.enter .select fun key => .column key f := by
  cases call with
  | map | mapAs | mapWith => simp only [layOut, hf]
  | join | joinAs | filter | andFilter | orFilter | orderBy | thenBy | groupBy | ignore | forType =>
    cases hf

end Call

def opening (e : Entity) (tableAlias : Option String) : Outline :=
  Outline.setAlias
    { blocks := [.listing { key := 1, tag := .select },
        .clause { key := 2, tag := .fromClause, entity := some e.name, tableAlias }]
      nextKey := 3 }
    e.name tableAlias

/-- What is known of a query under construction. -/
structure Laid (q : Select) (s : Outline) : Prop where
  draft_eq : q.draft = s.draft
  keyed : s.Keyed
  headed : s.Headed
  target : ∀ k, q.predicateClause = some k → s.Has (Block.ClauseAt k)

variable {q q' : Select} {s : Outline}

theorem Laid.start (c : Compiler) (e : Entity) (tableAlias : Option String) :
    Laid (Select.start c e tableAlias) (opening e tableAlias) where
  draft_eq := by cases tableAlias <;> rfl
  keyed := by
    refine Outline.Keyed.setAlias ⟨?_, ?_⟩ e.name tableAlias <;>
      simp [Outline.keys, Block.keys_listing, Block.keys_clause]
  headed := by
    refine Outline.Headed.setAlias ⟨[], ?_, ?_, ?_⟩ e.name tableAlias <;> simp [Block.tag]
  target := nofun

theorem Laid.joinWith (h : Laid q s) (kind : JoinKind) (joined : Entity)
    (tableAlias : Option String) (on : Expr) :
    Laid (q.joinWith kind.tag joined tableAlias on).value
      (s.join kind.tag kind.frame?_tag joined.name tableAlias
        (Scope.atoms { entity := some joined.name, tableAlias } on).value) where
  draft_eq := by
    simp only [Select.joinWith, Reading.value_bind, Reading.value_pure, h.draft_eq]
    exact Outline.draft_join h.keyed kind.frame?_tag joined.name tableAlias _ on
  keyed := h.keyed.join _ _ _ _
  headed := h.headed.join _ _ _ _ (by cases kind <;> decide)
  target := by
    intro k hk
    simp only [Select.joinWith, Reading.value_bind, Reading.value_pure, h.draft_eq,
      Option.some.injEq] at hk
    exact hk ▸ Outline.has_insert ⟨rfl, rfl⟩ _ _

theorem Laid.nest (h : Laid q s) {anchor : Block → Bool} {joint : Joint} {atoms : List Atom}
    (hdraft : q'.draft = (s.nest anchor joint atoms).draft)
    (hclause : q'.predicateClause = q.predicateClause) : Laid q' (s.nest anchor joint atoms) where
  draft_eq := hdraft
  keyed := h.keyed.nest _ _ _
  headed := h.headed.nest _ _ _
  target k hk := (h.target k (hclause ▸ hk)).nest (Block.lasting_clauseAt k).nest _ _ _

theorem Laid.chain (h : Laid q s) (joint : Joint) (predicate : Expr) :
    Laid (q.chain joint.tag predicate).value
      (s.nest (fun b => some b.key == q.predicateClause) joint
        (q.scope.atoms predicate).value) := by
  refine h.nest ?_ rfl
  simp only [Select.chain, Draft.nestExpression, Draft.expressionClause, Reading.value_bind,
    Reading.value_pure, h.draft_eq]
  exact Outline.draft_nest_key h.keyed joint _ h.target

theorem Laid.nestOrder (h : Laid q s) (d : Direction) (field : Expr) :
    Laid (q.nestOrder d.joint.tag field).value
      (s.nest (fun b => b.tag.startsOrder) d.joint (q.scope.atoms field).value) := by
  refine h.nest ?_ rfl
  simp only [Select.nestOrder, Draft.nestExpression, Draft.expressionClause, Reading.value_bind,
    Reading.value_pure, h.draft_eq]
  exact Outline.draft_nest_order h.keyed d.joint _

theorem Laid.filter (h : Laid q s) (predicate : Expr) :
    Laid (q.filter predicate).value
      (s.restrict Tag.followsWhere (q.scope.atoms predicate).value) where
  draft_eq := by
    simp only [Select.filter, Reading.value_bind, Reading.value_pure, h.draft_eq]
    exact Outline.draft_restrict h.keyed q.scope predicate Tag.followsWhere
  keyed := h.keyed.restrict _ _
  headed := h.headed.restrict _ rfl rfl
  target := by
    intro k hk
    simp only [Select.filter, Reading.value_bind, Reading.value_pure, h.draft_eq,
      Outline.draft_restrict h.keyed q.scope predicate Tag.followsWhere,
      Option.map_eq_some_iff] at hk
    obtain ⟨p, hp, rfl⟩ := hk
    have hmem := List.mem_filter.1 (List.mem_of_mem_head? hp)
    obtain ⟨b, hb, rfl⟩ := List.mem_map.1 hmem.1
    have htag : b.tag = .whereClause := by simpa using hmem.2
    refine ⟨b, hb, Block.isClause_of_frame? (by rw [htag]; rfl) fun v => ?_, b.part_key.symm⟩
    rw [htag]
    cases v <;> decide

theorem Laid.orderWith (h : Laid q s) (d : Direction) (field : Expr) :
    Laid (q.orderWith d.tag d.joint.tag field).value
      (s.order d.tag d.frame?_tag d.joint (q.scope.atoms field).value) := by
  have hq : (q.orderWith d.tag d.joint.tag field).value =
      { q with
        draft := (s.order d.tag d.frame?_tag d.joint (q.scope.atoms field).value).draft } := by
    rw [← Outline.draft_order h.keyed, Select.orderWith, h.draft_eq]
    by_cases hany : (s.draft.contains .orderBy || s.draft.contains .orderByDesc) = true
    · rw [if_pos hany, if_pos hany]
      simp only [Select.nestOrder, Draft.nestExpression, Draft.expressionClause,
        Reading.value_bind, Reading.value_pure, h.draft_eq]
      rfl
    · rw [if_neg hany, if_neg hany]
      simp only [Draft.addExpression, Draft.expressionClause, Reading.value_bind,
        Reading.value_pure]
      rfl
  rw [hq]
  have hfrom : d.tag ≠ .fromClause := by cases d <;> decide
  exact ⟨rfl, h.keyed.order _ _ _, h.headed.order _ _ _ hfrom, fun k hk =>
    (h.target k hk).order (Block.lasting_clauseAt k).nest _ _ _⟩

theorem Laid.addField (h : Laid q s) (f : ColumnRef) :
    Laid { q with draft := q.draft.addField f } (s.enter .select fun key => .column key f) where
  draft_eq := by
    obtain ⟨l, c, rest, hblocks, hl, -⟩ := h.headed.blocks
    have hany : (s.blocks.any fun b => b.tag == .select) = true := by
      rw [hblocks]
      simp [Block.tag, hl]
    rw [h.draft_eq]
    exact Outline.draft_enter h.keyed rfl hany fun key => .column key f
  keyed := h.keyed.enter _ fun _ => rfl
  headed := h.headed.enter _ _
  target k hk := (h.target k hk).enter (Block.lasting_clauseAt k).enter _ _

theorem Laid.forType (h : Laid q s) (result : Entity) :
    Laid (q.forType result) (s.supply (q.projection result)).closeSelect where
  draft_eq := by
    simp only [Select.forType, h.draft_eq]
    rw [Outline.draft_supply h.keyed h.headed, Outline.draft_closeSelect]
  keyed := (h.keyed.supply h.headed _).closeSelect
  headed := (h.headed.supply _).closeSelect
  target k hk := ((h.target k hk).supply h.headed (Block.lasting_clauseAt k).apart _).closeSelect
    (Block.lasting_clauseAt k).apart

theorem Laid.groupBy (h : Laid q s) (f : ColumnRef) :
    Laid
      { q with
        draft :=
          let opened :=
            if q.draft.contains .groupBy then q.draft
            else q.draft.spend 1
              (q.draft.addAheadOf (.list q.draft.nextKey .groupBy) fun p => p.tag.isOrder)
          opened.spend 1 (opened.addToLast (.field opened.nextKey f) .groupBy) }
      (s.openGrouping.enter .groupBy fun key => .column key f) where
  draft_eq := by
    simp only [h.draft_eq, Outline.draft_openGrouping]
    exact Outline.draft_enter h.keyed.openGrouping rfl s.any_openGrouping fun key => .column key f
  keyed := h.keyed.openGrouping.enter _ fun _ => rfl
  headed := h.headed.openGrouping.enter _ _
  target k hk := (h.target k hk).openGrouping.enter (Block.lasting_clauseAt k).enter _ _

theorem member_eq_ok {e : Expr} {f : ColumnRef} (h : (q.member e).outcome = .ok f) :
    q.scope.field? e = some f := by
  rw [member] at h
  cases he : q.scope.field? e with
  | some g =>
    rw [he] at h
    cases h
    rfl
  | none =>
    rw [he] at h
    obtain ⟨_, -, h⟩ := Rendering.outcome_bind_eq_ok h
    cases h

theorem joinAs_eq_ok {joined : Entity} {tableAlias : String} {on : Expr}
    (h : (q.joinAs joined tableAlias on).outcome = .ok q') :
    tableAlias ≠ "" ∧ q' = (q.joinWith .join joined (some tableAlias) on).value := by
  rw [joinAs] at h
  by_cases ha : tableAlias = ""
  · rw [if_pos ha] at h
    cases h
  · rw [if_neg ha] at h
    cases h
    exact ⟨ha, rfl⟩

theorem mapped_eq_ok {call : Call} {source : Expr}
    (hcall : call = .map source ∨ (∃ name, call = .mapAs source name) ∨
      ∃ name converter, call = .mapWith source name converter)
    (h : (call.apply q).outcome = .ok q') :
    ∃ f, call.mapped? q.scope = some f ∧ q' = { q with draft := q.draft.addField f } := by
  obtain rfl | ⟨name, rfl⟩ | ⟨name, converter, rfl⟩ := hcall
  · obtain ⟨f, hf, h⟩ := Rendering.outcome_bind_eq_ok h
    cases h
    exact ⟨f, member_eq_ok hf, rfl⟩
  · simp only [Call.apply, mapAs] at h
    by_cases hname : name = ""
    · rw [if_pos hname] at h
      cases h
    · rw [if_neg hname] at h
      obtain ⟨f, hf, h⟩ := Rendering.outcome_bind_eq_ok h
      cases h
      exact ⟨_, by rw [Call.mapped?, member_eq_ok hf]; rfl, rfl⟩
  · obtain ⟨f, hf, h⟩ := Rendering.outcome_bind_eq_ok h
    cases h
    refine ⟨_, by rw [Call.mapped?, member_eq_ok hf]; rfl, ?_⟩
    cases name.filter fun s => s ≠ "" <;> rfl

/-- Every call that succeeds keeps the query laid out. -/
theorem Laid.step (h : Laid q s) {call : Call} (hcall : (call.apply q).outcome = .ok q') :
    Laid q' (call.layOut q s) := by
  cases call with
  | join kind joined on =>
    rw [Call.apply_join] at hcall
    cases hcall
    exact h.joinWith kind joined none on
  | joinAs joined tableAlias on =>
    obtain ⟨-, rfl⟩ := joinAs_eq_ok hcall
    exact h.joinWith .inner joined (some tableAlias) on
  | filter predicate =>
    cases hcall
    exact h.filter predicate
  | andFilter predicate =>
    cases hcall
    exact h.chain .and predicate
  | orFilter predicate =>
    cases hcall
    exact h.chain .or predicate
  | orderBy direction field =>
    rw [Call.apply_orderBy] at hcall
    cases hcall
    exact h.orderWith direction field
  | thenBy direction field =>
    rw [Call.apply_thenBy] at hcall
    cases hcall
    exact h.nestOrder direction field
  | groupBy field =>
    obtain ⟨f, hf, hcall⟩ := Rendering.outcome_bind_eq_ok hcall
    cases hcall
    rw [Call.layOut, member_eq_ok hf]
    exact h.groupBy f
  | map source =>
    obtain ⟨f, hf, rfl⟩ := mapped_eq_ok (.inl rfl) hcall
    rw [Call.layOut_mapped hf]
    exact h.addField f
  | mapAs source name =>
    obtain ⟨f, hf, rfl⟩ := mapped_eq_ok (.inr (.inl ⟨name, rfl⟩)) hcall
    rw [Call.layOut_mapped hf]
    exact h.addField f
  | mapWith source name converter =>
    obtain ⟨f, hf, rfl⟩ := mapped_eq_ok (.inr (.inr ⟨name, converter, rfl⟩)) hcall
    rw [Call.layOut_mapped hf]
    exact h.addField f
  | ignore member =>
    cases hcall
    exact ⟨h.draft_eq, h.keyed, h.headed, h.target⟩
  | forType result =>
    cases hcall
    exact h.forType result

theorem Laid.run (h : Laid q s) {calls : List Call} (hrun : (q.run calls).outcome = .ok q') :
    ∃ s', Laid q' s' :=
  run_induction (I := fun _ q => ∃ s, Laid q s) []
    (fun ⟨_, h⟩ hcall => ⟨_, h.step hcall⟩) ⟨s, h⟩ hrun

end SqlComposer.Select
