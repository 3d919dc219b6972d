import SqlComposer.Proofs.Expr.Unqualified
import SqlComposer.Proofs.Select.Columns
import SqlComposer.Proofs.Select.Qualified

/-!
# Queries followed call by call

What the calls say decides which columns a query shows: those that it maps go into the select list
until that is fixed, those of its conditions and orderings stand behind it. An entity may be the
entity of several tables here, and then its name stands for the first alias that one of them has.
-/
namespace SqlComposer

theorem Scope.unqualified_within (scope : Scope) (f : ColumnRef) :
    (scope.within f).unqualified = .named f.field := by
  rw [within]
  cases f.tableAlias <;> cases f.entity <;> rfl

theorem Scope.unqualified_field? (scope : Scope) (e : Expr) :
    (scope.field? e).map ColumnRef.unqualified = (field? {} e).map ColumnRef.unqualified := by
  induction e with
  | member entity tableAlias field => cases tableAlias <;> cases entity <;> rfl
  | convert inner ih => exact ih
  | constant | deferred | binary | computed => rfl

namespace Operand

theorem columns_row (t : Operand) : t.row.filterMap Atom.column? = t.columns := by
  induction t with
  | column f => rfl
  | parameter p =>
    rw [row, Parameter.atom?]
    cases p.source <;> rfl
  | binary op left right ihl ihr =>
    simp only [row, columns, List.filterMap_cons, List.filterMap_append, List.filterMap_nil, ihl,
      ihr, Atom.column?, List.append_nil]
  | nullTest expected tested ih =>
    simp only [row, columns, List.filterMap_cons, List.filterMap_append, List.filterMap_nil, ih,
      Atom.column?, List.append_nil]

end Operand

theorem Scope.columns_atoms (scope : Scope) (e : Expr) :
    (scope.atoms e).value.filterMap Atom.column? = e.members.map scope.within := by
  rw [scope.atoms_eq, Operand.columns_row, Operand.ofExpr_within, Operand.columns_mapColumns,
    Operand.columns_ofExpr]

def Expr.names (e : Expr) : List String :=
  e.members.map ColumnRef.field

theorem Scope.unqualified_atoms (scope : Scope) (e : Expr) :
    ((scope.atoms e).value.filterMap Atom.column?).map ColumnRef.unqualified =
      e.names.map ColumnRef.named := by
  rw [scope.columns_atoms, Expr.names, List.map_map, List.map_map]
  exact List.map_congr_left fun f _ => scope.unqualified_within f

namespace Select

/-! ### The tables -/

def Opening.source (o : Opening) : Source :=
  ⟨Schema.ofEntity o.entity, o.tableAlias⟩

def tables (o : Opening) (calls : List Call) : List Source :=
  o.source :: calls.filterMap Call.source?

def firstAlias (tables : List Binding) (entity : String) : Option String :=
  (tables.filter fun b => b.name == entity).findSome? Binding.tableAlias

variable {c : Compiler} {o : Opening} {calls after : List Call} {call : Call} {q q' : Select}
  {s : Outline} {chosen : Selection} {others : List ColumnRef}

theorem bindings_eq (o : Opening) (calls : List Call) :
    bindings o calls = (tables o calls).map Source.binding := by
  rw [bindings, tables, List.map_cons, List.map_filterMap]
  simp only [Call.binding?_eq]
  rfl

theorem tables_append (o : Opening) (calls after : List Call) :
    tables o (calls ++ after) = tables o calls ++ after.filterMap Call.source? := by
  rw [tables, List.filterMap_append]
  rfl

theorem firstAlias_append (tables : List Binding) (b : Binding) (e : String) :
    firstAlias (tables ++ [b]) e =
      if e = b.name then firstAlias tables e <|> b.tableAlias else firstAlias tables e := by
  rw [firstAlias, List.filter_append, List.findSome?_append]
  by_cases he : e = b.name
  · subst he
    simp [firstAlias]
  · have hne : (b.name == e) = false := by simpa using Ne.symm he
    simp [firstAlias, hne, he]

/-! ### The columns -/

/-- The columns that a call names in a condition, a grouping or an ordering. -/
def Call.mentioned : Call → List String
  | .join _ _ e | .joinAs _ _ e | .filter e | .andFilter e | .orFilter e | .orderBy _ e
  | .thenBy _ e | .groupBy e => e.names
  | _ => []

def Call.picked? (call : Call) : Option ColumnRef :=
  (call.mapped? {}).map ColumnRef.unqualified

theorem Call.unqualified_mapped? (scope : Scope) (call : Call) :
    (call.mapped? scope).map ColumnRef.unqualified = call.picked? := by
  -- what a call says about its column besides the table
  have hsaid (e : Expr) (say : ColumnRef → ColumnRef)
      (hsay : ∀ f, (say f).unqualified = say f.unqualified) :
      ((scope.field? e).map say).map ColumnRef.unqualified =
        (((Scope.field? {} e).map say).map ColumnRef.unqualified) := by
    have hfield := congrArg (Option.map say) (scope.unqualified_field? e)
    simpa only [Option.map_map, Function.comp_def, hsay] using hfield
  cases call with
  | map e => exact scope.unqualified_field? e
  | mapAs e name => exact hsaid e _ fun f => rfl
  | mapWith e name converter =>
    refine hsaid e _ fun f => ?_
    cases name.filter fun s => s ≠ "" <;> rfl
  | join | joinAs | filter | andFilter | orFilter | orderBy | thenBy | groupBy | ignore |
    forType => rfl

def Call.choose (q : Select) (chosen : Selection) (call : Call) : Selection :=
  match call with
  | .forType result => (chosen.supply (q.projection result)).fix
  | _ =>
    match call.mapped? q.scope with
    | some f => chosen.take f
    | none => chosen

theorem Call.choose_of_fixed (q : Select) (call : Call) (h : chosen.isFixed = true) :
    call.choose q chosen = chosen := by
  unfold choose
  split
  · rw [Selection.supply_of_fixed h, Selection.fix_of_fixed h]
  · split
    · exact Selection.take_of_fixed h _
    · rfl

theorem Call.choose_of_open (q : Select) (call : Call) (hcall : call.isForType = false)
    (h : chosen.isFixed = false) :
    (call.choose q chosen).isFixed = false ∧
      (call.choose q chosen).columns = chosen.columns ++ (call.mapped? q.scope).toList := by
  have htake : call.choose q chosen =
      ((call.mapped? q.scope).map chosen.take).getD chosen := by
    cases call with
    | forType => cases hcall
    | _ =>
      simp only [choose]
      split
      · rename_i f hf
        rw [hf, Option.map_some, Option.getD_some]
      · rename_i hf
        rw [hf, Option.map_none, Option.getD_none]
  rw [htake]
  cases call.mapped? q.scope with
  | none => exact ⟨h, (List.append_nil _).symm⟩
  | some f => exact ⟨h, if_neg (Bool.eq_false_iff.1 h)⟩

theorem Laid.over_layOut (h : Laid q s) {isFixed : Bool} (hopen : s.Open isFixed)
    (hs : s.Over chosen others) (hcall : (call.apply q).outcome = .ok q') :
    ∃ new, new.map ColumnRef.unqualified = call.mentioned.map ColumnRef.named ∧
      (call.layOut q s).Over (call.choose q chosen) (others ++ new) := by
  cases call with
  | join kind joined on => exact ⟨_, Scope.unqualified_atoms _ on, hs.join _ _ _ _⟩
  | joinAs joined tableAlias on => exact ⟨_, Scope.unqualified_atoms _ on, hs.join _ _ _ _⟩
  | filter e => exact ⟨_, Scope.unqualified_atoms _ e, hs.restrict rfl _⟩
  | andFilter e =>
    exact ⟨_, Scope.unqualified_atoms _ e,
      hs.nest (Outline.isClause_of_target h.keyed h.target) _ _⟩
  | orFilter e =>
    exact ⟨_, Scope.unqualified_atoms _ e,
      hs.nest (Outline.isClause_of_target h.keyed h.target) _ _⟩
  | orderBy d e => exact ⟨_, Scope.unqualified_atoms _ e, hs.order _ _ _⟩
  | thenBy d e =>
    exact ⟨_, Scope.unqualified_atoms _ e,
      hs.nest_tag Tag.startsOrder Outline.startsOrder_clause _ _⟩
  | groupBy e =>
    obtain ⟨f, hf, -⟩ := Rendering.outcome_bind_eq_ok hcall
    obtain ⟨m, hm, rfl⟩ := Scope.field?_eq_some (member_eq_ok hf)
    refine ⟨[q.scope.within m], ?_, ?_⟩
    · rw [Call.mentioned, Expr.names, hm, List.map_singleton, Scope.unqualified_within]
      rfl
    · rw [Call.layOut, member_eq_ok hf]
      exact hs.group hopen.openGrouping _
  | map e =>
    obtain ⟨f, hf, -⟩ := mapped_eq_ok (.inl rfl) hcall
    refine ⟨[], rfl, ?_⟩
    simp only [Call.layOut, Call.choose, hf, List.append_nil]
    exact hs.take f
  | mapAs e name =>
    obtain ⟨f, hf, -⟩ := mapped_eq_ok (.inr (.inl ⟨name, rfl⟩)) hcall
    refine ⟨[], rfl, ?_⟩
    simp only [Call.layOut, Call.choose, hf, List.append_nil]
    exact hs.take f
  | mapWith e name converter =>
    obtain ⟨f, hf, -⟩ := mapped_eq_ok (.inr (.inr ⟨name, converter, rfl⟩)) hcall
    refine ⟨[], rfl, ?_⟩
    simp only [Call.layOut, Call.choose, hf, List.append_nil]
    exact hs.take f
  | ignore member => exact ⟨[], rfl, by rwa [List.append_nil]⟩
  | forType result =>
    refine ⟨[], rfl, ?_⟩
    rw [List.append_nil]
    exact (hs.supply _).closeSelect

/-! ### Runs -/

/-- What a query has to do with its outline, after calls. -/
structure Traced (c : Compiler) (o : Opening) (calls : List Call) (q : Select) (s : Outline)
    (chosen : Selection) : Prop where
  laid : Laid q s
  compiler : q.compiler = c
  entity : (∀ call ∈ calls, call.source? = none ∧ call.isForType = false) → q.entity = o.entity
  sources : q.sources = tables o calls
  ignored : q.ignored = calls.filterMap Call.ignored?
  aliases : ∀ e, s.aliases.find? e = firstAlias (bindings o calls) e
  lists : s.Open (calls.any Call.isForType)
  columns : ∃ others, s.Over chosen others ∧
    others.map ColumnRef.unqualified = (calls.flatMap Call.mentioned).map .named
  picked : (∀ call ∈ calls, call.isForType = false) →
    chosen.isFixed = false ∧ chosen.columns.map ColumnRef.unqualified = calls.filterMap Call.picked?

theorem Traced.start (c : Compiler) (o : Opening) :
    Traced c o [] (Select.start c o.entity o.tableAlias) (opening o.entity o.tableAlias) {} where
  laid := .start c o.entity o.tableAlias
  compiler := rfl
  entity _ := rfl
  sources := rfl
  ignored := rfl
  aliases e := by
    have hempty : firstAlias [] e = none := rfl
    have hopening := firstAlias_append [] o.binding e
    rw [opening, Outline.setAlias_find?]
    rw [hempty, List.nil_append] at hopening
    exact hopening.symm
  lists := (Tabled.start c o).lists
  columns := by
    refine ⟨[], ?_, rfl⟩
    refine Outline.Over.setAlias ?_ o.entity.name o.tableAlias
    refine ⟨_, _, rfl, rfl, fun b hb => ?_, rfl, .refl _⟩
    rw [List.mem_singleton.1 hb]
    exact Block.tag_ne_select rfl
  picked _ := ⟨rfl, rfl⟩

theorem Traced.step (h : Traced c o calls q s chosen) (hcall : (call.apply q).outcome = .ok q') :
    Traced c o (calls ++ [call]) q' (call.layOut q s) (call.choose q chosen) := by
  have happlied := applied_of_apply hcall
  refine
    { laid := h.laid.step hcall
      compiler := happlied.compiler.trans h.compiler
      entity := fun hcalls => ?entity
      sources := ?sources
      ignored := ?ignored
      aliases := fun e => ?aliases
      lists := ?lists
      columns := ?columns
      picked := fun hcalls => ?picked }
  case entity =>
    obtain ⟨hbefore, hlast⟩ := List.forall_mem_append.1 hcalls
    obtain ⟨hsource, hforType⟩ := hlast call List.mem_cons_self
    exact (happlied.entity hsource hforType).trans (h.entity hbefore)
  case sources =>
    rw [happlied.sources, h.sources, tables_append]
    cases hs : call.source? <;> simp [hs]
  case ignored =>
    rw [happlied.ignored, h.ignored, List.filterMap_append]
    cases hi : call.ignored? <;> simp [hi]
  case aliases =>
    rw [layOut_aliases, bindings_append]
    cases hb : call.binding? with
    | none => simp [hb, h.aliases]
    | some b =>
      simp only [List.filterMap_cons, hb, List.filterMap_nil]
      rw [firstAlias_append, Outline.setAlias_find?, h.aliases]
  case lists =>
    have hopen := open_layOut q h.lists call
    rwa [List.any_append, List.any_cons, List.any_nil, Bool.or_false]
  case columns =>
    obtain ⟨others, hover, hothers⟩ := h.columns
    obtain ⟨new, hnew, hgrown⟩ := h.laid.over_layOut h.lists hover hcall
    refine ⟨others ++ new, hgrown, ?_⟩
    rw [List.map_append, hothers, hnew, List.flatMap_append, List.flatMap_singleton,
      List.map_append]
  case picked =>
    obtain ⟨hbefore, hlast⟩ := List.forall_mem_append.1 hcalls
    obtain ⟨hopen, hpicked⟩ := h.picked hbefore
    have hforType := hlast call List.mem_cons_self
    obtain ⟨hfixed, hcolumns⟩ := call.choose_of_open q hforType hopen
    refine ⟨hfixed, ?_⟩
    rw [hcolumns, List.map_append, hpicked, List.filterMap_append, List.filterMap_cons,
      List.filterMap_nil, ← call.unqualified_mapped? q.scope]
    cases call.mapped? q.scope <;> rfl

theorem Traced.run {calls : List Call} {q : Select}
    (hrun : ((Select.start c o.entity o.tableAlias).run calls).outcome = .ok q) :
    ∃ s chosen, Traced c o calls q s chosen :=
  run_induction (I := fun calls q => ∃ s chosen, Traced c o calls q s chosen) []
    (fun ⟨_, _, h⟩ hcall => ⟨_, _, h.step hcall⟩) ⟨_, _, .start c o⟩ hrun

theorem Traced.run_of_fixed (h : Traced c o calls q s chosen) (hfixed : chosen.isFixed = true)
    (hrun : (q.run after).outcome = .ok q') :
    ∃ s', Traced c o (calls ++ after) q' s' chosen := by
  refine run_induction (I := fun calls q => ∃ s, Traced c o calls q s chosen) calls ?_ ⟨s, h⟩ hrun
  rintro calls call q p ⟨s, h⟩ hcall
  have hstep := h.step hcall
  rw [call.choose_of_fixed q hfixed] at hstep
  exact ⟨_, hstep⟩

theorem Traced.outcome_compileAs (h : Traced c o calls q s chosen) (result : Entity) :
    (q.compileAs result).outcome =
      .ok ⟨(s.supply (q.projection result)).sql c,
        (s.supply (q.projection result)).draft.toTree⟩ := by
  rw [h.laid.outcome_compileAs, h.compiler]

end Select

end SqlComposer
