import SqlComposer.Proofs.Outline.Clean
import SqlComposer.Proofs.Schema
import SqlComposer.Proofs.Select.Tables

/-!
# Queries without apostrophes

A query over names and values without apostrophes is laid out as an outline that has none outside
of its literals, whatever calls it took.
-/
namespace SqlComposer

structure Entity.Clean (e : Entity) : Prop where
  name : Text.Clean e.name
  members : ∀ m ∈ e.members, Text.Clean m.name

theorem Entity.Clean.field {e : Entity} (he : e.Clean) {f : FieldDef}
    (hf : f ∈ (Schema.ofEntity e).fields) : Text.Clean f.memberName := by
  have hmember : f.member ∈ e.members := by
    rw [← Schema.map_member e]
    exact List.mem_map_of_mem hf
  exact he.members f.member hmember

namespace Select

def Opening.Clean (o : Opening) : Prop :=
  o.entity.Clean ∧ ∀ a ∈ o.tableAlias, Text.Clean a

def Call.Clean : Call → Prop
  | .join _ joined on => joined.Clean ∧ on.Clean
  | .joinAs joined tableAlias on => joined.Clean ∧ Text.Clean tableAlias ∧ on.Clean
  | .filter e | .andFilter e | .orFilter e | .orderBy _ e | .thenBy _ e | .groupBy e | .map e =>
    e.Clean
  | .mapAs source name => source.Clean ∧ Text.Clean name
  | .mapWith source name _ => source.Clean ∧ ∀ s ∈ name, Text.Clean s
  | .ignore _ => True
  | .forType result => result.Clean

/-- The names that a query still uses for what comes next have no apostrophes. -/
structure Clean (q : Select) : Prop where
  entity : q.entity.Clean
  tableAlias : ∀ a ∈ q.tableAlias, Text.Clean a
  sources : ∀ s ∈ q.sources, Text.Clean s.schema.name ∧ ∀ a ∈ s.tableAlias, Text.Clean a

variable {q q' : Select} {s : Outline} {call : Call}

theorem Clean.scope (hq : q.Clean) : q.scope.Clean where
  entity := by
    rintro _ ⟨⟩
    exact hq.entity.name
  tableAlias := hq.tableAlias

theorem Clean.projection (hq : q.Clean) {result : Entity} (hresult : result.Clean) :
    ∀ r ∈ q.projection result, r.Clean := by
  intro r hr
  obtain ⟨f, hf, rfl⟩ := List.mem_map.1 hr
  have hfield := hresult.field (List.mem_filter.1 hf).1
  rw [projectedField]
  cases hfind : q.sources.find? fun s => (s.schema.field? f.memberName).isSome with
  | none => exact ⟨hfield, nofun, nofun, nofun⟩
  | some source =>
    obtain ⟨hname, halias⟩ := hq.sources source (List.mem_of_find?_eq_some hfind)
    exact ⟨hfield, nofun, fun _ h => Option.some.inj h ▸ hname, halias⟩

theorem Clean.start (c : Compiler) {o : Opening} (ho : o.Clean) :
    (Select.start c o.entity o.tableAlias).Clean where
  entity := ho.1
  tableAlias := ho.2
  sources source hsource := by
    rw [List.mem_singleton.1 hsource]
    exact ⟨ho.1.name, ho.2⟩

theorem clean_opening {o : Opening} (ho : o.Clean) : (opening o.entity o.tableAlias).Clean := by
  have haliases : ∀ entry ∈ ([] : AliasTable), Text.Clean entry.2 := by simp
  refine Outline.Clean.setAlias ⟨?_, haliases⟩ o.entity.name ho.2
  intro b hb
  obtain rfl | rfl := List.mem_pair.1 hb
  · exact fun e he => nomatch he
  · exact Block.clean_source 2 rfl ho.1.name ho.2 (.inl rfl) fun _ => rfl

theorem Clean.joined (hq : q.Clean) {joined : Entity} (hjoined : joined.Clean)
    {tableAlias : Option String} (halias : ∀ a ∈ tableAlias, Text.Clean a) (tag : Tag) (on : Expr) :
    (q.joinWith tag joined tableAlias on).value.Clean where
  entity := hjoined
  tableAlias := halias
  sources source hsource := by
    obtain hsource | hsource := List.mem_append.1 hsource
    · exact hq.sources source hsource
    · rw [List.mem_singleton.1 hsource]
      exact ⟨hjoined.name, halias⟩

theorem Clean.apply (hq : q.Clean) (hclean : call.Clean) (h : (call.apply q).outcome = .ok q') :
    q'.Clean := by
  have hkeep {q' : Select} (hentity : q'.entity = q.entity) (halias : q'.tableAlias = q.tableAlias)
      (hsources : q'.sources = q.sources) : q'.Clean :=
    ⟨hentity ▸ hq.entity, halias ▸ hq.tableAlias, hsources ▸ hq.sources⟩
  cases call with
  | join kind joined on =>
    rw [Call.apply_join] at h
    cases h
    have hnone : ∀ a ∈ (none : Option String), Text.Clean a :=
      fun _ h => absurd h (Option.not_mem_none _)
    exact hq.joined hclean.1 hnone _ _
  | joinAs joined tableAlias on =>
    obtain ⟨-, rfl⟩ := joinAs_eq_ok h
    exact hq.joined hclean.1 (fun _ h => Option.some.inj h ▸ hclean.2.1) _ _
  | filter | andFilter | orFilter =>
    cases h
    exact hkeep rfl rfl rfl
  | orderBy d field =>
    rw [Call.apply_orderBy] at h
    cases h
    simp only [orderWith]
    split_ifs <;> exact hkeep rfl rfl rfl
  | thenBy d field =>
    rw [Call.apply_thenBy] at h
    cases h
    exact hkeep rfl rfl rfl
  | groupBy field =>
    obtain ⟨f, -, h⟩ := Rendering.outcome_bind_eq_ok h
    cases h
    exact hkeep rfl rfl rfl
  | map source =>
    obtain ⟨f, -, rfl⟩ := mapped_eq_ok (.inl rfl) h
    exact hkeep rfl rfl rfl
  | mapAs source name =>
    obtain ⟨f, -, rfl⟩ := mapped_eq_ok (.inr (.inl ⟨name, rfl⟩)) h
    exact hkeep rfl rfl rfl
  | mapWith source name converter =>
    obtain ⟨f, -, rfl⟩ := mapped_eq_ok (.inr (.inr ⟨name, converter, rfl⟩)) h
    exact hkeep rfl rfl rfl
  | ignore member =>
    cases h
    exact hkeep rfl rfl rfl
  | forType result =>
    cases h
    exact ⟨hclean, fun _ h => absurd h (Option.not_mem_none _), hq.sources⟩

theorem Clean.mapped (hq : q.Clean) (hclean : call.Clean) {r : ColumnRef}
    (hr : call.mapped? q.scope = some r) : r.Clean := by
  cases call with
  | map source => exact hq.scope.field? hclean hr
  | mapAs source name =>
    obtain ⟨r, hfield, rfl⟩ := Option.map_eq_some_iff.1 hr
    obtain ⟨hname, -, hentity, halias⟩ := hq.scope.field? hclean.1 hfield
    exact ⟨hname, fun _ h => Option.some.inj h ▸ hclean.2, hentity, halias⟩
  | mapWith source name converter =>
    obtain ⟨r, hfield, rfl⟩ := Option.map_eq_some_iff.1 hr
    obtain ⟨hname, hresult, hentity, halias⟩ := hq.scope.field? hclean.1 hfield
    cases h : name.filter fun s => s ≠ "" with
    | none => exact ⟨hname, hresult, hentity, halias⟩
    | some s =>
      have hs : Text.Clean s := hclean.2 s (Option.filter_eq_some_iff.1 h).1
      exact ⟨hname, fun _ h => Option.some.inj h ▸ hs, hentity, halias⟩
  | _ => cases hr

theorem Clean.layOut (hq : q.Clean) (hs : s.Clean) (hclean : call.Clean) :
    (call.layOut q s).Clean := by
  have hrow {e : Expr} (he : e.Clean) := hq.scope.row he
  have hjoin (joined : Entity) (tableAlias : Option String) (hname : Text.Clean joined.name)
      (halias : ∀ a ∈ tableAlias, Text.Clean a) :
      ({ entity := some joined.name, tableAlias } : Scope).Clean :=
    ⟨fun _ h => Option.some.inj h ▸ hname, halias⟩
  cases call with
  | join kind joined on =>
    obtain ⟨hjoined, hon⟩ := hclean
    have hnone : ∀ a ∈ (none : Option String), Text.Clean a :=
      fun _ h => absurd h (Option.not_mem_none _)
    exact hs.join ((hjoin joined none hjoined.name hnone).row hon) _ (by cases kind <;> decide)
      hjoined.name hnone
  | joinAs joined tableAlias on =>
    obtain ⟨hjoined, halias, hon⟩ := hclean
    have halias' : ∀ a ∈ some tableAlias, Text.Clean a := fun _ h => Option.some.inj h ▸ halias
    exact hs.join ((hjoin joined _ hjoined.name halias').row hon) _ (by decide) hjoined.name
      halias'
  | filter => exact hs.restrict (hrow hclean) _
  | andFilter | orFilter | thenBy => exact hs.nest (hrow hclean) _ _
  | orderBy d => exact hs.order (hrow hclean) _ (by cases d <;> decide) _
  | groupBy field =>
    rw [Call.layOut]
    cases hr : q.scope.field? field with
    | none => exact hs
    | some r =>
      have hfield := hq.scope.field? hclean hr
      exact hs.openGrouping.enter (e := fun key => .column key r) (fun _ => hfield) _
  | map | mapAs | mapWith =>
    simp only [Call.layOut]
    split
    · next r hr => exact hs.enter (e := fun key => .column key r) (fun _ => hq.mapped hclean hr) _
    · exact hs
  | ignore => exact hs
  | forType result => exact (hs.supply (hq.projection hclean)).closeSelect

end Select

end SqlComposer
