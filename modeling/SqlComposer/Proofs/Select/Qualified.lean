import SqlComposer.Proofs.Schema
import SqlComposer.Proofs.Select.Tables

/-!
# Qualified columns

Whatever is called before and after, the columns of a call are written under the table that was
current at the call or under the table they name, and a table that has an alias goes by its alias
even if it is joined later. Only a mapped column that the result does not ask for is not written.
-/
namespace SqlComposer

theorem contains_clauseText {tag : Tag} (htag : tag ≠ .fromClause) (source body : String) :
    Text.Contains (clauseText tag source body) body := by
  unfold clauseText
  split
  case h_1 => exact absurd rfl htag
  -- an ordering has its direction behind the body
  case h_10 | h_11 | h_12 | h_13 =>
    exact (Text.contains_append_left _ _).trans (Text.contains_append_right _ _)
  case h_14 => exact .refl _
  all_goals exact Text.contains_append_right _ _

theorem Scope.field?_eq_some {scope : Scope} {e : Expr} {f : ColumnRef}
    (h : scope.field? e = some f) : ∃ m, e.members = [m] ∧ f = scope.within m := by
  induction e with
  | member entity tableAlias field =>
    cases h
    exact ⟨_, rfl, by cases tableAlias <;> cases entity <;> rfl⟩
  | convert inner ih => exact ih h
  | constant | deferred | binary | computed => cases h

namespace Select

variable {c : Compiler} {o : Opening} {calls after : List Call} {call : Call} {q q' : Select}
  {s : Outline} {P : Block → Prop}

/-- The expression is the body of one of the clauses of the statement, and each of its columns is
written in it. -/
def Phrased (c : Compiler) (compiled : Compiled) (column : ColumnRef → String)
    (clauses : List (Tag × String)) (e : Expr) : Prop :=
  let body := e.written c.dialect column
  (∃ clause ∈ clauses,
      (∃ p ∈ compiled.tree.flatten,
        p.IsClause (compiled.tree.view c.dialect c.qualify) clause.1 clause.2 body) ∧
      Text.Contains compiled.sql (Text.dropLineBreaks (clauseText clause.1 clause.2 body))) ∧
    ∀ f ∈ e.members, Text.Contains compiled.sql (Text.dropLineBreaks (column f))

/-- The column stands in a list of the statement, and the item is what it is written as there. -/
def Listed (c : Compiler) (compiled : Compiled) (tag : Tag) (opening : String) (f : ColumnRef)
    (item : String) : Prop :=
  let v := compiled.tree.view c.dialect c.qualify
  ∃ list ∈ compiled.tree.parts, f ∈ list.fields ∧ f.render v = item ∧
    ∃ items, list.IsList v tag items ∧ item ∈ items ∧
      Text.Contains compiled.sql (Text.dropLineBreaks (opening ++ Text.joinWith ", " items ++ " "))

def titled (name : Option String) (f : ColumnRef) (text : String) : String :=
  match name with
  | some s => if s = f.field then text else text ++ " AS " ++ s
  | none => text

/-- The column of the expression is in the select list, under its name in the result, if it answers
to one of the names. -/
def Mapped (c : Compiler) (compiled : Compiled) (column : ColumnRef → String)
    (names : List String) (e : Expr) (name : Option String) : Prop :=
  ∃ f, e.members = [f] ∧
    (ColumnRef.AnswersTo { f with resultAlias := name } names →
      ∃ g : ColumnRef, g.field = f.field ∧ g.resultAlias = name ∧
        Listed c compiled .select "select " g (titled name f (column f)))

/-- How the expression of a call is written, with its columns written by `column` and a result of
these names. -/
def Call.WrittenIn (c : Compiler) (compiled : Compiled) (column : ColumnRef → String)
    (names : List String) : Call → Prop
  | .join kind joined on => Phrased c compiled column [(kind.tag, joined.name)] on
  | .joinAs joined tableAlias on =>
    Phrased c compiled column [(.join, joined.name ++ " " ++ tableAlias)] on
  | .filter e => Phrased c compiled column [(.whereClause, ""), (.andClause, "")] e
  | .andFilter e => Phrased c compiled column [(.andClause, "")] e
  | .orFilter e => Phrased c compiled column [(.orClause, "")] e
  | .orderBy direction e =>
    Phrased c compiled column [(direction.tag, ""), (direction.joint.tag, "")] e
  | .thenBy direction e => Phrased c compiled column [(direction.joint.tag, "")] e
  | .groupBy e => ∃ f, e.members = [f] ∧
      ∃ g : ColumnRef, g.field = f.field ∧ Listed c compiled .groupBy "GROUP BY " g (column f)
  | .map e => Mapped c compiled column names e none
  | .mapAs e name => Mapped c compiled column names e (some name)
  | .mapWith e name _ => Mapped c compiled column names e (name.filter fun s => s ≠ "")
  | .ignore _ | .forType _ => True

def asked (result : Entity) (ignored : List String) : List String :=
  (result.members.map Member.name).filter fun name => !ignored.contains name

/-- The names that the select list is for: those of the result that fixes it, or else of the
result that the query is compiled for. -/
def requested (result : Entity) (ignored : List String) : List Call → List String
  | [] => asked result ignored
  | .forType fixing :: _ => asked fixing ignored
  | call :: calls => requested result (ignored ++ call.ignored?.toList) calls

theorem requested_append (result : Entity) {before : List Call}
    (hbefore : ∀ call ∈ before, call.isForType = false) (ignored : List String) :
    requested result ignored (before ++ after) =
      requested result (ignored ++ before.filterMap Call.ignored?) after := by
  induction before generalizing ignored with
  | nil => simp
  | cons call before ih =>
    have hcall := hbefore call List.mem_cons_self
    have hrest : requested result ignored (call :: (before ++ after)) =
        requested result (ignored ++ call.ignored?.toList) (before ++ after) := by
      cases call with
      | forType => cases hcall
      | _ => rfl
    rw [List.cons_append, hrest, ih fun call' h => hbefore call' (List.mem_cons_of_mem _ h)]
    cases hi : call.ignored? <;> simp [hi]

theorem projectedField_plain (q : Select) (f : FieldDef) :
    (q.projectedField f).resultAlias = none ∧ (q.projectedField f).converter = none := by
  rw [projectedField]
  cases q.sources.find? fun s => (s.schema.field? f.memberName).isSome <;> exact ⟨rfl, rfl⟩

theorem projectedField_field (q : Select) (f : FieldDef) :
    (q.projectedField f).field = f.memberName := by
  rw [projectedField]
  cases q.sources.find? fun s => (s.schema.field? f.memberName).isSome <;> rfl

theorem map_field_projection (q : Select) (result : Entity) :
    (q.projection result).map ColumnRef.field = asked result q.ignored := by
  rw [projection, asked, List.map_map, ← Schema.map_memberName, List.filter_map]
  exact List.map_congr_left fun f _ => q.projectedField_field f

theorem Tabled.has_run (h : Tabled c o calls q s)
    (hnames : ((bindings o (calls ++ after)).map Binding.name).Nodup)
    (hrun : (q.run after).outcome = .ok q') :
    ∃ s', Tabled c o (calls ++ after) q' s' ∧
      ∀ P, (∀ {q s} call, Laid q s → s.Has P → (Call.layOut q s call).Has P) →
        s.Has P → s'.Has P := by
  refine run_induction (I := fun calls q => ((bindings o calls).map Binding.name).Nodup →
    ∃ s', Tabled c o calls q s' ∧
      ∀ P, (∀ {q s} call, Laid q s → s.Has P → (Call.layOut q s call).Has P) →
        s.Has P → s'.Has P) calls ?_ (fun _ => ⟨s, h, fun _ _ hs => hs⟩) hrun hnames
  intro calls call q p ih hcall hnames
  obtain ⟨s', h', hlasts⟩ := ih (nodup_names_of_append hnames)
  exact ⟨_, h'.step hnames hcall, fun P hP hs => hP call h'.laid (hlasts P hP hs)⟩

theorem Laid.has_shown (h : Laid q s) {f : ColumnRef} (hs : s.Has (Block.Shows f true))
    (call : Call) : (call.layOut q s).Has (Block.Shows f true) := by
  cases hcall : call.isForType with
  | false =>
    exact h.has (fun a hb => ⟨hb.1.nest a, Block.nest_isClosed.trans hb.2⟩)
      (fun e hb => ⟨hb.1.enter e, Block.enter_isClosed.trans hb.2⟩) hs call
      fun h => by rw [hcall] at h; cases h
  | true =>
    cases call with
    | forType => exact (Outline.has_supply h.headed hs nofun).fixed
    | _ => cases hcall

theorem Tabled.shown (h : Tabled c o calls q s) {f : ColumnRef} {result : Entity}
    (hnames : ((bindings o (calls ++ after)).map Binding.name).Nodup)
    (hs : s.Has (Block.Shows f false))
    (hf : f.AnswersTo (requested result q.ignored after))
    (hrun : (q.run after).outcome = .ok q') :
    ∃ s', Tabled c o (calls ++ after) q' s' ∧
      (s'.supply (q'.projection result)).Has (Block.Lists .select f) := by
  induction after generalizing calls q s with
  | nil =>
    cases hrun
    rw [requested, ← map_field_projection] at hf
    obtain ⟨b, hb, hlists, -⟩ := Outline.has_supply h.laid.headed hs fun _ => hf
    exact ⟨s, by rwa [List.append_nil], b, hb, hlists⟩
  | cons call after ih =>
    obtain ⟨p, hcall, hrest⟩ := run_cons_eq_ok hrun
    rw [List.append_cons] at hnames ⊢
    have hstep := h.step (nodup_names_of_append hnames) hcall
    cases hfixes : call.isForType with
    | false =>
      have hstays := h.laid.has (fun a hb => ⟨hb.1.nest a, Block.nest_isClosed.trans hb.2⟩)
        (fun e hb => ⟨hb.1.enter e, Block.enter_isClosed.trans hb.2⟩) hs call
        fun h => by rw [hfixes] at h; cases h
      refine ih hstep hnames hstays ?_ hrest
      rw [(applied_of_apply hcall).ignored]
      cases call with
      | forType => cases hfixes
      | _ => exact hf
    | true =>
      cases call with
      | forType fixing =>
        rw [requested, ← map_field_projection] at hf
        obtain ⟨s', h', hlasts⟩ := hstep.has_run hnames hrest
        have hs' := hlasts _ (fun call hlaid hs => hlaid.has_shown hs call)
          (Outline.has_supply h.laid.headed hs fun _ => hf).fixed
        have hsupplied : (s'.supply (q'.projection result)).Has (Block.Shows f true) :=
          Outline.has_supply h'.laid.headed hs' nofun
        obtain ⟨b, hb, hlists, -⟩ := hsupplied
        exact ⟨s', h', b, hb, hlists⟩
      | _ => cases hfixes

theorem Tabled.outcome_compileAs (h : Tabled c o calls q s) (result : Entity) :
    (q.compileAs result).outcome =
      .ok ⟨(s.supply (q.projection result)).sql c,
        (s.supply (q.projection result)).draft.toTree⟩ := by
  rw [h.laid.outcome_compileAs, h.compiler]

theorem Tabled.render_within (h : Tabled c o calls q s) (hqualify : c.qualify = true)
    (hnames : ((bindings o calls).map Binding.name).Nodup) {b : Binding}
    (hb : b ∈ bindings o calls) (fields : List ColumnRef) (f : ColumnRef) :
    (b.scope.within f).render ((s.supply fields).view c) = spelled (bindings o calls) b f := by
  refine Select.render_within hnames hb hqualify (fun e => ?_) f
  have haliases : ((s.supply fields).view c).aliases = s.aliases := s.supply_aliases fields
  rw [haliases, h.aliases]

theorem phrased_of_has {scope : Scope} {column : ColumnRef → String}
    (hcolumn : ∀ f, (scope.within f).render (s.view c) = column f) {tag : Tag}
    {entity tableAlias : Option String} {e : Expr}
    (hs : s.Has (Block.Says tag entity tableAlias (scope.atoms e).value)) (htag : tag ≠ .fromClause)
    {clauses : List (Tag × String)} (hclauses : (tag, sourceText entity tableAlias) ∈ clauses) :
    Phrased c (s.compiled c) column clauses e := by
  have hwritten : atomsText (s.view c) (scope.atoms e).value = e.written c.dialect column := by
    rw [Scope.atomsText_atoms, funext hcolumn]
    rfl
  have hclause : Text.Contains (s.sql c) (Text.dropLineBreaks
      (clauseText tag (sourceText entity tableAlias) (e.written c.dialect column))) := by
    refine hs.contains_sql fun hb => ?_
    have hsays := Block.Says.contains (v := s.view c) hb
    rwa [hwritten] at hsays
  have hpart : ∃ p ∈ s.draft.toTree.flatten,
      p.IsClause (s.view c) tag (sourceText entity tableAlias) (e.written c.dialect column) := by
    obtain ⟨b, hb, hsays⟩ := hs
    obtain ⟨p, hp, hclause⟩ := hsays.isClause (v := s.view c)
    exact ⟨p, s.mem_flatten_draft hb hp, hwritten ▸ hclause⟩
  refine ⟨⟨_, hclauses, hpart, hclause⟩, fun f hf => hclause.trans (Text.Contains.dropLineBreaks ?_)⟩
  exact (contains_clauseText htag _ _).trans (Expr.contains_written hf)

theorem render_titled (v : View) (f : ColumnRef) (name : Option String)
    (k : Option Converter) (hf : f.resultAlias = none) :
    ({ f with resultAlias := name, converter := k } : ColumnRef).render v =
      titled name f (f.render v) := by
  cases name with
  | none => simp [ColumnRef.render, ColumnRef.qualifier?, titled, hf]
  | some s => simp [ColumnRef.render, ColumnRef.qualifier?, titled, hf]

theorem spelled_ne_empty (tables : List Binding) (b : Binding) (f : ColumnRef) :
    spelled tables b f ≠ "" := by
  intro h
  have hlength := congrArg String.length h
  simp [spelled] at hlength

theorem titled_ne_empty {text : String} (htext : text ≠ "") (name : Option String)
    (f : ColumnRef) : titled name f text ≠ "" := by
  unfold titled
  split
  · split_ifs
    · exact htext
    · intro h
      have hlength := congrArg String.length h
      simp at hlength
  · exact htext

theorem resultAlias_within (scope : Scope) (f : ColumnRef) :
    (scope.within f).resultAlias = none ∧ (scope.within f).field = f.field := by
  rw [Scope.within]
  cases f.tableAlias <;> cases f.entity <;> exact ⟨rfl, rfl⟩

theorem within_eq (scope : Scope) (f : ColumnRef) :
    scope.within f = { scope.within f with resultAlias := none, converter := none } := by
  rw [Scope.within]
  cases f.tableAlias <;> cases f.entity <;> rfl

theorem listed_of_has {tag : Tag} {f : ColumnRef} (hs : s.Has (Block.Lists tag f))
    {opening : String} (hframe : tag.frame? = some ⟨opening, " "⟩)
    (hf : f.render (s.view c) ≠ "") :
    Listed c (s.compiled c) tag opening f (f.render (s.view c)) := by
  obtain ⟨b, hb, hlists⟩ := hs
  obtain ⟨items, hlist, hfield, hitem, htext⟩ := hlists.isList hframe hf
  refine ⟨b.part, List.mem_map_of_mem hb, hfield, rfl, items, hlist, hitem, ?_⟩
  have hhas : s.Has (· = b) := ⟨b, hb, rfl⟩
  refine hhas.contains_sql fun hb => ?_
  rw [hb, htext]
  exact .refl _

theorem listed_of_grouped {isFixed : Bool} (hopen : s.Open isFixed) {e : Expr} {f : ColumnRef}
    (hmember : q.scope.field? e = some f) {t : Outline}
    (hlasts : ∀ P, Block.Lasting P → ((Call.groupBy e).layOut q s).Has P → t.Has P)
    (hf : f.render (t.view c) ≠ "") :
    Listed c (t.compiled c) .groupBy "GROUP BY " f (f.render (t.view c)) := by
  have hs : ((Call.groupBy e).layOut q s).Has (Block.Lists .groupBy f) := by
    rw [Call.layOut, hmember]
    exact hopen.has_grouped f
  -- only what stands in a select list need not last
  have hlasting := Block.lasting_lists f (show Tag.groupBy ≠ .select by decide)
  exact listed_of_has (hlasts _ hlasting hs) rfl hf

theorem Laid.writtenIn (h : Laid q s) {isFixed : Bool} (hopen : s.Open isFixed) {p : Select}
    (hcall : (call.apply q).outcome = .ok p) {t : Outline}
    (hlasts : ∀ P, Block.Lasting P → (call.layOut q s).Has P → t.Has P)
    {column : ColumnRef → String} (hcolumn : ∀ f, (p.scope.within f).render (t.view c) = column f)
    (hne : ∀ f, column f ≠ "") {names : List String}
    (hmapped : ∀ f, call.mapped? q.scope = some f →
      call.WrittenIn c (t.compiled c) column names) :
    call.WrittenIn c (t.compiled c) column names := by
  have hscope := (applied_of_apply hcall).scope
  have hphrased {scope : Scope} {tag : Tag} {entity tableAlias : Option String} {e : Expr}
      {clauses : List (Tag × String)} (hscope : p.scope = scope)
      (hs : (call.layOut q s).Has (Block.Says tag entity tableAlias (scope.atoms e).value))
      (htag : tag ≠ .fromClause) (hclauses : (tag, sourceText entity tableAlias) ∈ clauses) :
      Phrased c (t.compiled c) column clauses e := by
    subst hscope
    exact phrased_of_has hcolumn (hlasts _ (Block.lasting_says ..) hs) htag hclauses
  cases call with
  | join kind joined on =>
    exact hphrased (hscope rfl) (s.has_join kind.frame?_tag joined.name none _)
      (by cases kind <;> decide) List.mem_cons_self
  | joinAs joined tableAlias on =>
    exact hphrased (hscope rfl) (s.has_join rfl joined.name (some tableAlias) _) (by decide)
      List.mem_cons_self
  | filter e =>
    obtain hs | hs := s.has_restrict Tag.followsWhere (q.scope.atoms e).value
    · exact hphrased (hscope rfl) hs (by decide) (by simp [sourceText])
    · exact hphrased (hscope rfl) hs (by decide) (by simp [sourceText])
  | andFilter e =>
    exact hphrased (hscope rfl) (Outline.has_nest_key h.keyed h.target .and _) (by decide)
      (by simp [sourceText, Joint.tag])
  | orFilter e =>
    exact hphrased (hscope rfl) (Outline.has_nest_key h.keyed h.target .or _) (by decide)
      (by simp [sourceText, Joint.tag])
  | orderBy d e =>
    obtain hs | hs := s.has_order d.frame?_tag d.joint (q.scope.atoms e).value
    · exact hphrased (hscope rfl) hs (by cases d <;> decide) (by simp [sourceText])
    · exact hphrased (hscope rfl) hs (by cases d <;> decide) (by simp [sourceText])
  | thenBy d e =>
    exact hphrased (hscope rfl)
      (Outline.has_nest_tag Tag.startsOrder Outline.startsOrder_clause d.joint _)
      (by cases d <;> decide) (by simp [sourceText])
  | groupBy e =>
    obtain ⟨f, hf, -⟩ := Rendering.outcome_bind_eq_ok hcall
    obtain ⟨m, hm, rfl⟩ := Scope.field?_eq_some (member_eq_ok hf)
    have hwritten := hcolumn m
    rw [show p.scope = q.scope from hscope rfl] at hwritten
    have hlisted := listed_of_grouped hopen (member_eq_ok hf) hlasts (hwritten ▸ hne m)
    rw [hwritten] at hlisted
    exact ⟨m, hm, q.scope.within m, (resultAlias_within q.scope m).2, hlisted⟩
  | map e =>
    obtain ⟨f, hf, -⟩ := mapped_eq_ok (.inl rfl) hcall
    exact hmapped f hf
  | mapAs e name =>
    obtain ⟨f, hf, -⟩ := mapped_eq_ok (.inr (.inl ⟨name, rfl⟩)) hcall
    exact hmapped f hf
  | mapWith e name converter =>
    obtain ⟨f, hf, -⟩ := mapped_eq_ok (.inr (.inr ⟨name, converter, rfl⟩)) hcall
    exact hmapped f hf
  | ignore | forType => trivial

theorem Tabled.listed (h : Tabled c o calls q s) (hqualify : c.qualify = true)
    (hnames : ((bindings o calls).map Binding.name).Nodup) {b : Binding}
    (hb : b ∈ bindings o calls) {tag : Tag} {opening : String}
    (hframe : tag.frame? = some ⟨opening, " "⟩) {f : ColumnRef} {name : Option String}
    {k : Option Converter} {fields : List ColumnRef}
    (hs : (s.supply fields).Has
      (Block.Lists tag { b.scope.within f with resultAlias := name, converter := k })) :
    Listed c ((s.supply fields).compiled c) tag opening
      { b.scope.within f with resultAlias := name, converter := k }
      (titled name f (spelled (bindings o calls) b f)) := by
  have hwritten : ({ b.scope.within f with resultAlias := name, converter := k } :
      ColumnRef).render ((s.supply fields).view c) =
        titled name f (spelled (bindings o calls) b f) := by
    obtain ⟨halias, hfield⟩ := resultAlias_within b.scope f
    rw [render_titled _ _ _ _ halias, h.render_within hqualify hnames hb]
    simp only [titled, hfield]
  have hne := titled_ne_empty (spelled_ne_empty (bindings o calls) b f) name f
  have hlisted := listed_of_has hs hframe (hwritten ▸ hne)
  rwa [hwritten] at hlisted

theorem current_of_binding? (hcall : call.binding? = none) :
    current o (calls ++ [call]) = current o calls := by
  rw [current_append, hcall]
  rfl

theorem Tabled.mapped_after (h : Tabled c o calls q s) (hqualify : c.qualify = true)
    (hnames : ((bindings o (calls ++ after)).map Binding.name).Nodup)
    (hrun : (q.run after).outcome = .ok q') {result : Entity} {compiled : Compiled}
    (hcompiled : (q'.compileAs result).outcome = .ok compiled) {e : Expr} {f : ColumnRef}
    {name : Option String} {k : Option Converter} (hmembers : e.members = [f])
    (hs : s.Has (Block.Shows
      { (current o calls).scope.within f with resultAlias := name, converter := k } false)) :
    Mapped c compiled (spelled (bindings o (calls ++ after)) (current o calls))
      (requested result q.ignored after) e name := by
  refine ⟨f, hmembers, fun hf => ?_⟩
  have hfield := (resultAlias_within (current o calls).scope f).2
  rw [ColumnRef.AnswersTo, ← hfield] at hf
  obtain ⟨s', h', hs'⟩ := h.shown hnames hs hf hrun
  obtain rfl := Except.ok.inj (hcompiled.symm.trans (h'.outcome_compileAs result))
  have hcurrent : current o calls ∈ bindings o (calls ++ after) :=
    bindings_append o calls after ▸ List.mem_append_left _ (current_mem o calls)
  exact ⟨{ (current o calls).scope.within f with resultAlias := name, converter := k }, hfield, rfl,
    h'.listed hqualify hnames hcurrent rfl hs'⟩

theorem mapped?_eq_some {scope : Scope} {f : ColumnRef} (h : call.mapped? scope = some f) :
    ∃ e name m k, e.members = [m] ∧
      f = { scope.within m with resultAlias := name, converter := k } ∧
      ∀ c compiled column names, Mapped c compiled column names e name →
        call.WrittenIn c compiled column names := by
  cases call with
  | map e =>
    obtain ⟨m, hm, rfl⟩ := Scope.field?_eq_some h
    exact ⟨e, none, m, none, hm, within_eq scope m, fun _ _ _ _ hmapped => hmapped⟩
  | mapAs e name =>
    obtain ⟨g, hg, rfl⟩ := Option.map_eq_some_iff.1 h
    obtain ⟨m, hm, rfl⟩ := Scope.field?_eq_some hg
    refine ⟨e, some name, m, none, hm, ?_, fun _ _ _ _ hmapped => hmapped⟩
    rw [within_eq]
  | mapWith e name converter =>
    obtain ⟨g, hg, rfl⟩ := Option.map_eq_some_iff.1 h
    obtain ⟨m, hm, rfl⟩ := Scope.field?_eq_some hg
    refine ⟨e, name.filter fun s => s ≠ "", m, some converter, hm, ?_,
      fun _ _ _ _ hmapped => hmapped⟩
    rw [within_eq]
    cases name.filter fun s => s ≠ "" <;> rfl
  | join | joinAs | filter | andFilter | orFilter | orderBy | thenBy | groupBy | ignore |
    forType => cases h

theorem Tabled.mapped (h : Tabled c o calls q s)
    (hcalls : ∀ call ∈ calls, call.isForType = false) (f : ColumnRef) :
    (s.enter .select fun key => .column key f).Has (Block.Shows f false) := by
  obtain ⟨l, _, _, hblocks, hl, -⟩ := h.laid.headed.blocks
  have hany : (s.blocks.any fun b => b.tag == .select) = true := by
    rw [hblocks]
    simp [Block.tag, hl]
  refine Outline.has_enter rfl hany fun b hb _ => Bool.eq_false_iff.2 fun hclosed => ?_
  obtain ⟨-, hfixed⟩ := h.lists b hb hclosed
  obtain ⟨call, hcall, hforType⟩ := List.any_eq_true.1 hfixed
  rw [hcalls call hcall] at hforType
  cases hforType

theorem Tabled.writtenIn (h : Tabled c o calls q s)
    (hcalls : ∀ call ∈ calls, call.isForType = false) {p : Select}
    (hcall : (call.apply q).outcome = .ok p) (hqualify : c.qualify = true)
    (hnames : ((bindings o (calls ++ [call] ++ after)).map Binding.name).Nodup)
    (hrun : (p.run after).outcome = .ok q') {result : Entity} {compiled : Compiled}
    (hcompiled : (q'.compileAs result).outcome = .ok compiled) :
    call.WrittenIn c compiled
      (spelled (bindings o (calls ++ [call] ++ after)) (current o (calls ++ [call])))
      (requested result p.ignored after) := by
  cases hforType : call.isForType with
  | true =>
    cases call with
    | forType => trivial
    | _ => cases hforType
  | false =>
    have hstep := h.step (nodup_names_of_append hnames) hcall
    have hscope : p.scope = (current o (calls ++ [call])).scope := by
      refine hstep.scope fun call' hmem => ?_
      obtain hmem | hmem := List.mem_append.1 hmem
      · exact hcalls call' hmem
      · rw [List.mem_singleton.1 hmem, hforType]
    obtain ⟨s', h', hlasts⟩ := hstep.has_run hnames hrun
    obtain rfl := Except.ok.inj (hcompiled.symm.trans (h'.outcome_compileAs result))
    have hcurrent : current o (calls ++ [call]) ∈ bindings o (calls ++ [call] ++ after) :=
      bindings_append o (calls ++ [call]) after ▸ List.mem_append_left _ (current_mem ..)
    refine h.laid.writtenIn h.lists hcall (fun P hP hs => ?lasts)
      (fun f => hscope ▸ h'.render_within hqualify hnames hcurrent _ f)
      (spelled_ne_empty _ _) fun f hf => ?mapped
    case lasts =>
      exact (hlasts P (fun call hlaid hs => hlaid.lasts hP hs call) hs).supply h'.laid.headed
        hP.apart _
    case mapped =>
      obtain ⟨e, name, m, k, hm, rfl, hwritten⟩ := mapped?_eq_some hf
      have hnone : call.binding? = none := by
        cases call with
        | join | joinAs => cases hf
        | _ => rfl
      have hs := h.mapped hcalls { q.scope.within m with resultAlias := name, converter := k }
      rw [← Call.layOut_mapped hf s, h.scope hcalls, ← current_of_binding? hnone] at hs
      exact hwritten _ _ _ _ (hstep.mapped_after hqualify hnames hrun hcompiled hm hs)

theorem requested_of_built {before : List Call} (hbefore : ∀ call ∈ before, call.isForType = false)
    (hcall : call.isForType = false) (result : Entity) :
    requested result [] (before ++ call :: after) =
      requested result ((before ++ [call]).filterMap Call.ignored?) after := by
  rw [List.append_cons, requested_append result (fun call' h => ?_), List.nil_append]
  obtain h | h := List.mem_append.1 h
  · exact hbefore call' h
  · rw [List.mem_singleton.1 h]
    exact hcall

/-- In a query over tables of different names, the columns of a call are written as they are
spelled in all tables of the query, where the current table is that of the call. -/
theorem columns_qualified (c : Compiler) (o : Opening) (before : List Call) (call : Call)
    (after : List Call) (q : Select) (hqualify : c.qualify = true)
    (hnames : ((bindings o (before ++ call :: after)).map Binding.name).Nodup)
    (hbefore : ∀ call ∈ before, call.isForType = false)
    (hbuilt : (built c o (before ++ call :: after)).outcome = .ok q) (result : Entity) :
    ∃ compiled, (q.compileAs result).outcome = .ok compiled ∧
      call.WrittenIn c compiled
        (spelled (bindings o (before ++ call :: after)) (current o (before ++ [call])))
        (requested result [] (before ++ call :: after)) := by
  obtain ⟨-, hrun⟩ := built_eq_ok hbuilt
  obtain ⟨s, hend⟩ := Tabled.run hnames hrun
  have hcompiled := hend.outcome_compileAs result
  refine ⟨_, hcompiled, ?_⟩
  obtain ⟨p, hrunBefore, hrest⟩ := run_append_eq_ok hrun
  obtain ⟨r, hcall, hrunAfter⟩ := run_cons_eq_ok hrest
  obtain ⟨s', hp⟩ := Tabled.run (nodup_names_of_append hnames) hrunBefore
  rw [List.append_cons] at hnames
  have hwritten := hp.writtenIn hbefore hcall hqualify hnames hrunAfter hcompiled
  have hignored := (hp.step (nodup_names_of_append hnames) hcall).ignored
  cases hforType : call.isForType with
  | false =>
    rw [requested_of_built hbefore hforType, ← hignored, List.append_cons]
    exact hwritten
  | true =>
    cases call with
    | forType => trivial
    | _ => cases hforType

/-- A column of a table that is joined later under an alias, and a mapped column. -/
theorem columns_qualified_joined_later :
    let customer : Entity := ⟨"Customer", [⟨"Id", .int, false⟩]⟩
    let orders : Entity := ⟨"Orders", [⟨"CustomerId", .int, false⟩]⟩
    let condition : Expr := .equals (.qualified "Orders" "CustomerId") (.convert (.col "Id"))
    let later : List Call :=
      [.joinAs orders "o" (.equals (.col "CustomerId") (.qualified "Customer" "Id"))]
    let calls : List Call := .filter condition :: .mapAs (.col "Id") "Key" :: later
    ∃ q compiled, ((bindings (.from customer) calls).map Binding.name).Nodup ∧
      (built {} (.from customer) calls).outcome = .ok q ∧
      (q.compileAs customer).outcome = .ok compiled ∧
      Text.Contains compiled.sql "o.CustomerId" ∧ Text.Contains compiled.sql "Customer.Id" ∧
      ∃ g, Listed {} compiled .select "select " g "Customer.Id AS Key" := by
  intro customer orders condition later calls
  obtain ⟨q, hq⟩ : ∃ q, (built {} (.from customer) calls).outcome = .ok q := ⟨_, rfl⟩
  have hnames : ((bindings (.from customer) calls).map Binding.name).Nodup := by decide
  obtain ⟨compiled, hcompiled, -, hmembers⟩ :=
    columns_qualified {} (.from customer) [] (.filter condition) (.mapAs (.col "Id") "Key" :: later)
      q rfl hnames nofun hq customer
  obtain ⟨compiled', hcompiled', f, hf, hmapped⟩ :=
    columns_qualified {} (.from customer) [.filter condition] (.mapAs (.col "Id") "Key") later
      q rfl hnames (by simp [Call.isForType]) hq customer
  obtain rfl := Except.ok.inj (hcompiled.symm.trans hcompiled')
  obtain rfl : { field := "Id" } = f := List.singleton_inj.1 hf
  obtain ⟨g, -, -, hlisted⟩ := hmapped (.inl (by decide))
  have hlater := hmembers { field := "CustomerId", entity := some "Orders" } List.mem_cons_self
  have hcurrent := hmembers { field := "Id" } (List.mem_cons_of_mem _ List.mem_cons_self)
  have hspelled : Text.dropLineBreaks (spelled (bindings (.from customer) calls)
        (current (.from customer) [.filter condition])
        { field := "CustomerId", entity := some "Orders" }) = "o.CustomerId" ∧
      Text.dropLineBreaks (spelled (bindings (.from customer) calls)
        (current (.from customer) [.filter condition]) { field := "Id" }) = "Customer.Id" ∧
      titled (some "Key") { field := "Id" } (spelled (bindings (.from customer) calls)
        (current (.from customer) [.filter condition, .mapAs (.col "Id") "Key"])
        { field := "Id" }) = "Customer.Id AS Key" := by decide
  exact ⟨q, compiled, hnames, hq, hcompiled, hspelled.1 ▸ hlater, hspelled.2.1 ▸ hcurrent, g,
    hspelled.2.2 ▸ hlisted⟩

/-- A mapped column that the result does not ask for is left out of the statement. -/
theorem mapped_column_left_out :
    let customer : Entity :=
      ⟨"Customer", [⟨"Id", .int, false⟩, ⟨"Name", .string, true⟩, ⟨"Email", .string, true⟩]⟩
    ∃ q compiled, (built {} (.from customer) [.map (.col "Foo")]).outcome = .ok q ∧
      q.compile.outcome = .ok compiled ∧
      ¬ Text.Contains compiled.sql "Customer.Foo" := by
  refine ⟨_, _, rfl, rfl, ?_⟩
  decide

end Select

end SqlComposer
