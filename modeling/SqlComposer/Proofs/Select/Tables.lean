import SqlComposer.Proofs.Select.Lasting

/-!
# The tables of a query

The opening and every join add a table. The alias table of the statement says the alias of each of
them, and columns without a table belong to the one that was added last.
-/
namespace SqlComposer

theorem AliasTable.find?_set (table : AliasTable) (entity tableAlias e : String) :
    (table.set entity tableAlias).find? e =
      if e = entity then some ((table.find? entity).getD tableAlias) else table.find? e := by
  rw [AliasTable.set]
  by_cases he : e = entity
  · subst he
    rw [if_pos rfl]
    cases h : table.find? e with
    | some a => simp [h]
    | none =>
      simp only [AliasTable.find?] at h ⊢
      simp [h, List.lookup_append]
  · rw [if_neg he]
    by_cases h : (table.find? entity).isSome = true
    · rw [if_pos h]
    · rw [if_neg h, AliasTable.find?, AliasTable.find?, List.lookup_append]
      have hne : (e == entity) = false := by simpa using he
      simp [List.lookup_cons, hne]

namespace Outline

variable (s : Outline)

theorem setAlias_find? (entity : String) (tableAlias : Option String) (e : String) :
    (s.setAlias entity tableAlias).aliases.find? e =
      if e = entity then s.aliases.find? e <|> tableAlias else s.aliases.find? e := by
  cases tableAlias with
  | none => simp [setAlias]
  | some a =>
    rw [setAlias, AliasTable.find?_set]
    by_cases he : e = entity
    · subst he
      cases h : s.aliases.find? e <;> simp
    · rw [if_neg he, if_neg he]

end Outline

namespace Select

/-- A table of a query: the name of its entity and its alias. -/
structure Binding where
  name : String
  tableAlias : Option String
  deriving DecidableEq, Repr

namespace Binding

def label (b : Binding) : String :=
  b.tableAlias.getD b.name

def scope (b : Binding) : Scope :=
  { entity := some b.name, tableAlias := b.tableAlias }

end Binding

def Opening.binding (o : Opening) : Binding :=
  ⟨o.entity.name, o.tableAlias⟩

def Call.binding? : Call → Option Binding
  | .join _ joined _ => some ⟨joined.name, none⟩
  | .joinAs joined tableAlias _ => some ⟨joined.name, some tableAlias⟩
  | _ => none

def Call.source? : Call → Option Source
  | .join _ joined _ => some ⟨Schema.ofEntity joined, none⟩
  | .joinAs joined tableAlias _ => some ⟨Schema.ofEntity joined, some tableAlias⟩
  | _ => none

def Source.binding (source : Source) : Binding :=
  ⟨source.schema.name, source.tableAlias⟩

theorem Call.binding?_eq (call : Call) : call.binding? = call.source?.map Source.binding := by
  cases call <;> rfl

def bindings (o : Opening) (calls : List Call) : List Binding :=
  o.binding :: calls.filterMap Call.binding?

def current (o : Opening) (calls : List Call) : Binding :=
  ((calls.filterMap Call.binding?).getLast?).getD o.binding

def aliasIn (tables : List Binding) (entity : String) : Option String :=
  (tables.find? fun b => b.name == entity).bind Binding.tableAlias

/-- How a column is spelled: under the alias or the table that it names, or else under the current
table, and a table that has an alias by its alias. -/
def spelled (tables : List Binding) (current : Binding) (f : ColumnRef) : String :=
  (match f.tableAlias, f.entity with
    | some a, _ => a
    | none, some entity => (aliasIn tables entity).getD entity
    | none, none => current.label) ++ "." ++ f.field

variable {tables : List Binding} {b : Binding}

theorem aliasIn_of_mem (hnames : (tables.map Binding.name).Nodup) (hb : b ∈ tables) :
    aliasIn tables b.name = b.tableAlias := by
  have hfind : (tables.find? fun b' => b'.name == b.name) = some b := by
    obtain ⟨b', hb'⟩ : ∃ b', (tables.find? fun b' => b'.name == b.name) = some b' :=
      Option.isSome_iff_exists.1 (List.find?_isSome.2 ⟨b, hb, beq_self_eq_true _⟩)
    rw [hb']
    have hname : b'.name = b.name := by simpa using List.find?_some hb'
    exact congrArg some (List.inj_on_of_nodup_map hnames (List.mem_of_find?_eq_some hb') hb hname)
  rw [aliasIn, hfind]
  rfl

theorem aliasIn_append (hnames : ((tables ++ [b]).map Binding.name).Nodup) (e : String) :
    aliasIn (tables ++ [b]) e =
      if e = b.name then aliasIn tables e <|> b.tableAlias else aliasIn tables e := by
  rw [aliasIn, List.find?_append]
  by_cases he : e = b.name
  · have hnone : (tables.find? fun b' => b'.name == e) = none := by
      refine List.find?_eq_none.2 fun b' hb' hname => ?_
      rw [List.map_append, List.nodup_append] at hnames
      exact hnames.2.2 _ (List.mem_map_of_mem hb') b.name (by simp)
        ((beq_iff_eq.1 hname).trans he)
    rw [if_pos he, aliasIn, hnone]
    simp [he]
  · rw [if_neg he, aliasIn]
    have hne : (b.name == e) = false := by simpa using Ne.symm he
    simp [hne]

theorem render_within (hnames : (tables.map Binding.name).Nodup) (hb : b ∈ tables) {v : View}
    (hqualify : v.qualify = true) (haliases : ∀ e, v.aliases.find? e = aliasIn tables e)
    (f : ColumnRef) : (b.scope.within f).render v = spelled tables b f := by
  have hcurrent := aliasIn_of_mem hnames hb
  rw [Scope.within, spelled, ColumnRef.render, ColumnRef.qualifier?, if_pos hqualify]
  cases f.tableAlias with
  | some a => rfl
  | none =>
    cases f.entity with
    | some e => simp [Scope.columnRef, haliases]
    | none =>
      cases h : b.tableAlias with
      | some a => simp [Scope.columnRef, Binding.scope, Binding.label, h]
      | none =>
        rw [h] at hcurrent
        simp [Scope.columnRef, Binding.scope, Binding.label, h, haliases, hcurrent]

theorem current_mem (o : Opening) (calls : List Call) : current o calls ∈ bindings o calls := by
  rw [current, bindings]
  cases h : (calls.filterMap Call.binding?).getLast? with
  | none => exact List.mem_cons_self
  | some b => exact List.mem_cons_of_mem _ (List.mem_of_getLast? h)

theorem bindings_append (o : Opening) (calls after : List Call) :
    bindings o (calls ++ after) = bindings o calls ++ after.filterMap Call.binding? := by
  rw [bindings, List.filterMap_append]
  rfl

theorem current_append (o : Opening) (calls : List Call) (call : Call) :
    current o (calls ++ [call]) = call.binding?.getD (current o calls) := by
  rw [current, List.filterMap_append, current]
  cases h : call.binding? with
  | none => simp [h]
  | some b => simp [h]

def Call.ignored? : Call → Option String
  | .ignore member => some member
  | _ => none

/-- What the tables of a query have to do with its outline, after calls. -/
structure Tabled (c : Compiler) (o : Opening) (calls : List Call) (q : Select) (s : Outline) :
    Prop where
  laid : Laid q s
  compiler : q.compiler = c
  aliases : ∀ e, s.aliases.find? e = aliasIn (bindings o calls) e
  scope : (∀ call ∈ calls, call.isForType = false) → q.scope = (current o calls).scope
  ignored : q.ignored = calls.filterMap Call.ignored?
  lists : s.Open (calls.any Call.isForType)

variable {c : Compiler} {o : Opening} {calls : List Call} {call : Call} {q q' : Select}
  {s : Outline}

theorem Tabled.start (c : Compiler) (o : Opening) :
    Tabled c o [] (Select.start c o.entity o.tableAlias) (opening o.entity o.tableAlias) where
  laid := .start c o.entity o.tableAlias
  compiler := rfl
  aliases e := by
    rw [opening, Outline.setAlias_find?]
    have hbindings : bindings o [] = [o.binding] := rfl
    rw [hbindings, aliasIn]
    by_cases he : e = o.entity.name
    · simp [he, AliasTable.find?, Opening.binding]
    · have hne : (o.entity.name == e) = false := by simpa using Ne.symm he
      simp [he, hne, AliasTable.find?, Opening.binding]
  scope _ := rfl
  ignored := rfl
  lists := by
    refine Outline.Each.setAlias ?_ o.entity.name o.tableAlias
    rintro b hb hclosed
    obtain rfl | rfl := List.mem_pair.1 hb <;> cases hclosed

theorem layOut_aliases (q : Select) (s : Outline) (call : Call) :
    (call.layOut q s).aliases =
      match call.binding? with
      | some b => (s.setAlias b.name b.tableAlias).aliases
      | none => s.aliases := by
  cases call with
  | join | joinAs => rfl
  | filter => exact s.restrict_aliases _ _
  | andFilter | orFilter | thenBy => exact s.nest_aliases _ _ _
  | orderBy d => exact s.order_aliases d.frame?_tag _ _
  | groupBy field =>
    simp only [Call.layOut, Call.binding?]
    cases q.scope.field? field with
    | none => rfl
    | some f => exact s.openGrouping_aliases
  | map source =>
    simp only [Call.layOut, Call.binding?]
    cases (Call.map source).mapped? q.scope <;> rfl
  | mapAs source name =>
    simp only [Call.layOut, Call.binding?]
    cases (Call.mapAs source name).mapped? q.scope <;> rfl
  | mapWith source name converter =>
    simp only [Call.layOut, Call.binding?]
    cases (Call.mapWith source name converter).mapped? q.scope <;> rfl
  | ignore => rfl
  | forType result =>
    simp only [Call.layOut, Outline.closeSelect_aliases, Outline.supply_aliases]
    rfl

structure Applied (call : Call) (q q' : Select) : Prop where
  compiler : q'.compiler = q.compiler
  ignored : q'.ignored = q.ignored ++ call.ignored?.toList
  sources : q'.sources = q.sources ++ call.source?.toList
  scope : call.isForType = false → q'.scope = (call.binding?.map Binding.scope).getD q.scope
  entity : call.source? = none → call.isForType = false → q'.entity = q.entity

theorem Applied.redrawn (hignored : call.ignored? = none) (hsource : call.source? = none)
    (d : Draft) (k : Option Key) : Applied call q { q with draft := d, predicateClause := k } where
  compiler := rfl
  ignored := by rw [hignored, Option.toList_none, List.append_nil]
  sources := by rw [hsource, Option.toList_none, List.append_nil]
  scope _ := by
    rw [call.binding?_eq, hsource]
    rfl
  entity _ _ := rfl

theorem applied_of_apply (h : (call.apply q).outcome = .ok q') : Applied call q q' := by
  cases call with
  | join kind joined on =>
    rw [Call.apply_join] at h
    cases h
    exact ⟨rfl, (List.append_nil _).symm, rfl, fun _ => rfl, fun h => absurd h (Option.some_ne_none _)⟩
  | joinAs joined tableAlias on =>
    obtain ⟨-, rfl⟩ := joinAs_eq_ok h
    exact ⟨rfl, (List.append_nil _).symm, rfl, fun _ => rfl, fun h => absurd h (Option.some_ne_none _)⟩
  | filter | andFilter | orFilter =>
    cases h
    exact .redrawn rfl rfl _ _
  | orderBy d field =>
    rw [Call.apply_orderBy] at h
    cases h
    simp only [orderWith]
    split_ifs <;> exact .redrawn rfl rfl _ _
  | thenBy d field =>
    rw [Call.apply_thenBy] at h
    cases h
    exact .redrawn rfl rfl _ _
  | groupBy field =>
    obtain ⟨f, -, h⟩ := Rendering.outcome_bind_eq_ok h
    cases h
    exact .redrawn rfl rfl _ _
  | map source =>
    obtain ⟨f, -, rfl⟩ := mapped_eq_ok (.inl rfl) h
    exact .redrawn rfl rfl _ _
  | mapAs source name =>
    obtain ⟨f, -, rfl⟩ := mapped_eq_ok (.inr (.inl ⟨name, rfl⟩)) h
    exact .redrawn rfl rfl _ _
  | mapWith source name converter =>
    obtain ⟨f, -, rfl⟩ := mapped_eq_ok (.inr (.inr ⟨name, converter, rfl⟩)) h
    exact .redrawn rfl rfl _ _
  | ignore member =>
    cases h
    exact ⟨rfl, rfl, (List.append_nil _).symm, fun _ => rfl, fun _ _ => rfl⟩
  | forType result =>
    cases h
    exact ⟨rfl, (List.append_nil _).symm, (List.append_nil _).symm,
      fun h => absurd h.symm Bool.false_ne_true, fun _ h => absurd h.symm Bool.false_ne_true⟩

theorem run_compiler (hrun : (q.run calls).outcome = .ok q') : q'.compiler = q.compiler :=
  run_induction (I := fun _ p => p.compiler = q.compiler) []
    (fun h hcall => (applied_of_apply hcall).compiler.trans h) rfl hrun

theorem Tabled.step (h : Tabled c o calls q s)
    (hnames : ((bindings o (calls ++ [call])).map Binding.name).Nodup)
    (hcall : (call.apply q).outcome = .ok q') :
    Tabled c o (calls ++ [call]) q' (call.layOut q s) := by
  have happlied := applied_of_apply hcall
  refine ⟨h.laid.step hcall, happlied.compiler.trans h.compiler, fun e => ?_, fun hcalls => ?_, ?_, ?_⟩
  · rw [bindings_append] at hnames ⊢
    rw [layOut_aliases]
    cases hb : call.binding? with
    | none => simp [hb, h.aliases]
    | some b =>
      simp only [List.filterMap_cons, hb, List.filterMap_nil] at hnames ⊢
      rw [aliasIn_append hnames, Outline.setAlias_find?, h.aliases]
  · have hbefore := h.scope fun call' hmem => hcalls call' (List.mem_append_left _ hmem)
    rw [happlied.scope (hcalls call (by simp)), current_append, hbefore]
    cases call.binding? <;> rfl
  · rw [happlied.ignored, h.ignored, List.filterMap_append]
    cases hi : call.ignored? <;> simp [hi]
  · have hopen := open_layOut q h.lists call
    rwa [List.any_append, List.any_cons, List.any_nil, Bool.or_false]

theorem nodup_names_of_append {o : Opening} {calls after : List Call}
    (hnames : ((bindings o (calls ++ after)).map Binding.name).Nodup) :
    ((bindings o calls).map Binding.name).Nodup := by
  rw [bindings_append, List.map_append] at hnames
  exact hnames.sublist (List.sublist_append_left _ _)

theorem Tabled.run {calls : List Call} {q : Select}
    (hnames : ((bindings o calls).map Binding.name).Nodup)
    (hrun : ((Select.start c o.entity o.tableAlias).run calls).outcome = .ok q) :
    ∃ s, Tabled c o calls q s := by
  refine run_induction (I := fun calls q => ((bindings o calls).map Binding.name).Nodup →
    ∃ s, Tabled c o calls q s) [] ?_ (fun _ => ⟨_, .start c o⟩) hrun hnames
  intro calls call q p ih hcall hnames
  obtain ⟨s, h⟩ := ih (nodup_names_of_append hnames)
  exact ⟨_, h.step hnames hcall⟩

end Select

end SqlComposer
