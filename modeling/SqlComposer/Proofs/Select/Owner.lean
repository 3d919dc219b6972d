import Mathlib.Data.List.TakeWhile
import SqlComposer.Proofs.Select.Traced

/-!
# Where the columns of a result are read from

A member of the result is read from the first table whose entity has it. The select list keeps an
alias of that table as it is; a table without an alias is known there by its entity, and is taken
for another one as soon as some table of the entity gets an alias.
-/
namespace SqlComposer.Select

def owner? (tables : List Source) (member : String) : Option Binding :=
  (tables.find? fun source => (source.schema.field? member).isSome).map Source.binding

/-- What the columns of a table are qualified with in the select list. -/
def Binding.qualifier (all : List Binding) (b : Binding) : String :=
  b.tableAlias.getD ((firstAlias all b.name).getD b.name)

def projectedText (all : List Binding) (owner : Option Binding) (member : String) : String :=
  match owner with
  | some b => b.qualifier all ++ "." ++ member
  | none => member

/-- The calls that the select list is made from: those before it is fixed. -/
def choosing (calls : List Call) : List Call :=
  calls.takeWhile fun call => !call.isForType

def Call.fixes? : Call → Option Entity
  | .forType result => some result
  | _ => none

/-- The entity that the select list is for: the first one that it is fixed for, or else the one
that the query is compiled for. -/
def shape (result : Entity) (calls : List Call) : Entity :=
  (calls.findSome? Call.fixes?).getD result

variable {c : Compiler} {o : Opening} {calls after : List Call} {call : Call} {q q' : Select}
  {s : Outline} {chosen : Selection} {others : List ColumnRef}

theorem Call.isForType_of_mem_choosing {calls : List Call} {call : Call}
    (h : call ∈ choosing calls) : call.isForType = false := by
  simpa using List.mem_takeWhile_imp h

theorem choosing_cases (result : Entity) (calls : List Call) :
    (choosing calls = calls ∧ shape result calls = result) ∨
      ∃ after, calls = choosing calls ++ Call.forType (shape result calls) :: after := by
  induction calls with
  | nil => exact .inl ⟨rfl, rfl⟩
  | cons call calls ih =>
    cases call with
    | forType fixing => exact .inr ⟨calls, rfl⟩
    | _ =>
      obtain ⟨hcalls, hshape⟩ | ⟨after, hcalls⟩ := ih
      · exact .inl ⟨congrArg (List.cons _) hcalls, hshape⟩
      · exact .inr ⟨after, congrArg (List.cons _) hcalls⟩

theorem render_projectedField (q : Select) (f : FieldDef) {v : View} (hqualify : v.qualify = true)
    {all : List Binding} (haliases : ∀ e, v.aliases.find? e = firstAlias all e) :
    (q.projectedField f).render v = projectedText all (owner? q.sources f.memberName) f.memberName := by
  rw [projectedField, owner?]
  cases q.sources.find? fun s => (s.schema.field? f.memberName).isSome with
  | none => simp [projectedText, ColumnRef.render, ColumnRef.qualifier?, ColumnRef.named]
  | some s =>
    cases ha : s.tableAlias <;>
      simp [projectedText, Binding.qualifier, Source.binding, ColumnRef.render,
        ColumnRef.qualifier?, ColumnRef.ofEntity, hqualify, haliases, ha]

theorem owner?_mem {calls after : List Call} {member : String} {b : Binding}
    (h : owner? (tables o calls) member = some b) : b ∈ bindings o (calls ++ after) := by
  obtain ⟨source, hsource, rfl⟩ := Option.map_eq_some_iff.1 h
  rw [bindings_eq, tables_append]
  exact List.mem_map_of_mem (List.mem_append_left _ (List.mem_of_find?_eq_some hsource))

theorem qualifier_eq_label_iff {all : List Binding} (hlabels : (all.map Binding.label).Nodup)
    {b : Binding} (hb : b ∈ all) :
    b.qualifier all = b.label ↔
      b.tableAlias.isSome ∨ ∀ b' ∈ all, b'.name = b.name → b'.tableAlias = none := by
  rw [Binding.qualifier, Binding.label]
  cases ha : b.tableAlias with
  | some a => simp
  | none =>
    cases hfirst : firstAlias all b.name with
    | none =>
      rw [firstAlias, List.findSome?_eq_none_iff] at hfirst
      simpa using hfirst
    | some a =>
      obtain ⟨b', hb', ha'⟩ := List.exists_of_findSome?_eq_some hfirst
      obtain ⟨hmem, hname⟩ := List.mem_filter.1 hb'
      have hname : b'.name = b.name := by simpa using hname
      -- the alias is the label of its own table, which is not `b`
      have hne : a ≠ b.name := by
        rintro rfl
        have hlabel : b'.label = b.label := by simp [Binding.label, ha, ha']
        rw [List.inj_on_of_nodup_map hlabels hmem hb hlabel, ha] at ha'
        cases ha'
      refine ⟨fun h => absurd h hne, ?_⟩
      rintro (h | h)
      · cases h
      · rw [h b' hmem hname] at ha'
        cases ha'

/-- A compiled query has the member in its select list, written in one way only. -/
def Projects (c : Compiler) (compiled : Compiled) (member text : String) : Prop :=
  (∃ f ∈ compiled.tree.selected, f.field = member) ∧
    ∀ f ∈ compiled.tree.selected, f.field = member →
      f.render (compiled.tree.view c.dialect c.qualify) = text ∧
        (text ≠ "" → Listed c compiled .select "select " f text)

theorem has_of_over (h : s.Over chosen others) {f : ColumnRef} (hf : f ∈ chosen.columns) :
    s.Has (Block.Lists .select f) := by
  obtain ⟨l, rest, hblocks, hl, -, rfl, -⟩ := h
  obtain ⟨e, he, hef⟩ := List.mem_filterMap.1 (show f ∈ l.columns from hf)
  cases e with
  | column key g =>
    cases hef
    exact ⟨.listing l, hblocks ▸ List.mem_cons_self, l, key, rfl, hl, he⟩
  | parameter => cases hef

/-- The query whose result the select list of a compiled query holds, with the columns that were
there before the list was supplied. -/
structure Choice (o : Opening) (calls : List Call) (result : Entity) (p : Select)
    (present : List ColumnRef) (t : Outline) : Prop where
  sources : p.sources = tables o (choosing calls)
  ignored : p.ignored = (choosing calls).filterMap Call.ignored?
  picked : present.map ColumnRef.unqualified = (choosing calls).filterMap Call.picked?
  selection : ∃ chosen others, t.Over chosen others ∧
    chosen.columns = (Selection.supply ⟨present, false⟩ (p.projection (shape result calls))).columns
  aliases : ∀ e, t.aliases.find? e = firstAlias (bindings o calls) e

theorem exists_choice (hrun : ((Select.start c o.entity o.tableAlias).run calls).outcome = .ok q)
    (result : Entity) :
    ∃ p present t, Choice o calls result p present t ∧
      (q.compileAs result).outcome = .ok ⟨t.sql c, t.draft.toTree⟩ := by
  have hopen : ∀ call ∈ choosing calls, call.isForType = false :=
    fun _ => Call.isForType_of_mem_choosing
  obtain ⟨hcalls, hshape⟩ | ⟨after, hcalls⟩ := choosing_cases result calls
  · obtain ⟨s, ⟨present, isFixed⟩, h⟩ := Traced.run (c := c) hrun
    obtain ⟨hfixed, hpresent⟩ := h.picked (hcalls ▸ hopen)
    obtain ⟨others, hover, -⟩ := h.columns
    obtain rfl : isFixed = false := hfixed
    refine ⟨q, present, s.supply (q.projection result), ?_, h.outcome_compileAs result⟩
    exact
      { sources := by rw [hcalls, h.sources]
        ignored := by rw [hcalls, h.ignored]
        picked := by rw [hcalls, ← hpresent]
        selection := ⟨_, others, hover.supply _, by rw [hshape]⟩
        aliases := fun e => by rw [Outline.supply_aliases, h.aliases] }
  · rw [hcalls] at hrun
    obtain ⟨p, hchoosing, hrest⟩ := run_append_eq_ok hrun
    obtain ⟨r, hfixes, hafter⟩ := run_cons_eq_ok hrest
    obtain ⟨s, ⟨present, isFixed⟩, h⟩ := Traced.run (c := c) hchoosing
    obtain ⟨hfixed, hpresent⟩ := h.picked hopen
    obtain rfl : isFixed = false := hfixed
    -- what the select list was fixed to is there in the end
    obtain ⟨s', h'⟩ := (h.step hfixes).run_of_fixed rfl hafter
    rw [← List.append_cons, ← hcalls] at h'
    obtain ⟨others, hover, -⟩ := h'.columns
    refine ⟨p, present, s'.supply (q.projection result), ?_, h'.outcome_compileAs result⟩
    exact
      { sources := h.sources
        ignored := h.ignored
        picked := hpresent
        selection := ⟨_, others, hover.supply _, by rw [Selection.supply_of_fixed rfl]; rfl⟩
        aliases := fun e => by rw [Outline.supply_aliases, h'.aliases] }

section Choice

variable {p : Select} {present : List ColumnRef} {t : Outline} {result : Entity} {member : String}

theorem Choice.selected (h : Choice o calls result p present t) :
    t.draft.toTree.selected =
      (present.filter fun f => (p.projection (shape result calls)).any fun r => Draft.answers r f) ++
        Draft.unmet present (p.projection (shape result calls)) := by
  obtain ⟨chosen, others, hover, hchosen⟩ := h.selection
  rw [hover.selected, hchosen]
  rfl

theorem Choice.has (h : Choice o calls result p present t) {f : ColumnRef}
    (hf : f ∈ t.draft.toTree.selected) : t.Has (Block.Lists .select f) := by
  obtain ⟨chosen, others, hover, -⟩ := h.selection
  exact has_of_over hover (hover.selected ▸ hf)

theorem Choice.not_answers (h : Choice o calls result p present t)
    (hpicked : ∀ f ∈ (choosing calls).filterMap Call.picked?, ¬f.AnswersTo [member]) :
    ∀ f ∈ present, f.field ≠ member ∧ f.resultAlias ≠ some member := by
  intro f hf
  have hmem : f.unqualified ∈ (choosing calls).filterMap Call.picked? :=
    h.picked ▸ List.mem_map_of_mem hf
  have hnot := hpicked _ hmem
  simpa [ColumnRef.AnswersTo, ColumnRef.unqualified] using hnot

theorem Choice.render_selected (h : Choice o calls result p present t) (hqualify : c.qualify = true)
    (hmapped : ∀ f ∈ present, f.field ≠ member) {f : ColumnRef}
    (hf : f ∈ t.draft.toTree.selected) (hfield : f.field = member) :
    f.render (t.view c) =
      projectedText (bindings o calls) (owner? (tables o (choosing calls)) member) member := by
  rw [h.selected] at hf
  obtain hf | hf := List.mem_append.1 hf
  · exact absurd hfield (hmapped f (List.mem_filter.1 hf).1)
  · obtain ⟨d, -, rfl⟩ := List.mem_map.1 (Draft.mem_of_mem_unmet hf)
    rw [projectedField_field] at hfield
    rw [render_projectedField p d hqualify h.aliases, h.sources, hfield]

theorem Choice.exists_selected (h : Choice o calls result p present t)
    (hmember : member ∈ asked (shape result calls) ((choosing calls).filterMap Call.ignored?))
    (hpresent : ∀ f ∈ present, f.field ≠ member ∧ f.resultAlias ≠ some member) :
    ∃ f ∈ t.draft.toTree.selected, f.field = member := by
  rw [← h.ignored, ← map_field_projection] at hmember
  obtain ⟨r, hr, rfl⟩ := List.mem_map.1 hmember
  have hplain : ∀ g ∈ p.projection (shape result calls), g.resultAlias = none := by
    intro g hg
    obtain ⟨d, -, rfl⟩ := List.mem_map.1 hg
    exact (p.projectedField_plain d).1
  have hnone : present.any (Draft.answers r) = false := by
    refine List.any_eq_false.2 fun f hf => ?_
    simpa [Draft.answers] using hpresent f hf
  obtain ⟨f, hf, hfield⟩ := Draft.exists_mem_unmet hplain hr hnone
  exact ⟨f, h.selected ▸ List.mem_append_right _ hf, hfield⟩

theorem Choice.projects (h : Choice o calls result p present t) (hqualify : c.qualify = true)
    (hmember : member ∈ asked (shape result calls) ((choosing calls).filterMap Call.ignored?))
    (hpicked : ∀ f ∈ (choosing calls).filterMap Call.picked?, ¬f.AnswersTo [member]) :
    Projects c ⟨t.sql c, t.draft.toTree⟩ member
      (projectedText (bindings o calls) (owner? (tables o (choosing calls)) member) member) := by
  have hpresent := h.not_answers hpicked
  have hrender : ∀ f ∈ t.draft.toTree.selected, f.field = member → f.render (t.view c) = _ :=
    fun _ hf hfield => h.render_selected hqualify (fun g hg => (hpresent g hg).1) hf hfield
  obtain ⟨f, hf, hfield⟩ := h.exists_selected hmember hpresent
  refine ⟨⟨f, hf, hfield⟩, fun f hf hfield => ⟨hrender f hf hfield, fun htext => ?_⟩⟩
  have hwritten := hrender f hf hfield
  rw [← hwritten] at htext ⊢
  exact listed_of_has (h.has hf) rfl htext

end Choice

/-- Every member of the result that is not mapped is written under the first table that has it, and
by the name that distinguishes this table from the others unless the table has no alias and another
one of its entity has. -/
theorem projected_from_owner (c : Compiler) (o : Opening) (calls : List Call) (q : Select)
    (result : Entity) (hqualify : c.qualify = true)
    (hlabels : ((bindings o calls).map Binding.label).Nodup)
    (hbuilt : (built c o calls).outcome = .ok q) :
    ∃ compiled, (q.compileAs result).outcome = .ok compiled ∧
      ∀ member ∈ asked (shape result calls) ((choosing calls).filterMap Call.ignored?),
        (∀ f ∈ (choosing calls).filterMap Call.picked?, ¬f.AnswersTo [member]) →
          let owner := owner? (tables o (choosing calls)) member
          let text := projectedText (bindings o calls) owner member
          Projects c compiled member text ∧
            ∀ b, owner = some b →
              (text = b.label ++ "." ++ member ↔
                b.tableAlias.isSome ∨
                  ∀ b' ∈ bindings o calls, b'.name = b.name → b'.tableAlias = none) := by
  obtain ⟨-, hrun⟩ := built_eq_ok hbuilt
  obtain ⟨p, present, t, h, hcompiled⟩ := exists_choice hrun result
  refine ⟨_, hcompiled, fun member hmember hpicked => ⟨h.projects hqualify hmember hpicked, ?_⟩⟩
  intro b hb
  obtain ⟨rest, hcalls⟩ : choosing calls <+: calls := List.takeWhile_prefix _
  have hmem : b ∈ bindings o calls := by
    rw [← hcalls]
    exact owner?_mem hb
  rw [hb, projectedText, String.append_left_inj, String.append_left_inj]
  exact qualifier_eq_label_iff hlabels hmem

/-- A table that is joined with itself, and another one. -/
theorem projected_from_owner_self_join :
    let employee : Entity := ⟨"Employee", [⟨"Id", .int, false⟩, ⟨"LastName", .string, false⟩]⟩
    let territory : Entity := ⟨"Territory", [⟨"Id", .int, false⟩, ⟨"Region", .string, false⟩]⟩
    let result : Entity := ⟨"Report", [⟨"LastName", .string, false⟩, ⟨"Region", .string, false⟩]⟩
    let calls : List Call :=
      [.joinAs employee "m" (.equals (.col "Id") (.qualifiedAs "e" "Id")),
        .join .inner territory (.equals (.col "Id") (.qualifiedAs "e" "Id"))]
    ∃ q compiled, ((bindings (.fromAs employee "e") calls).map Binding.label).Nodup ∧
      (built {} (.fromAs employee "e") calls).outcome = .ok q ∧
      (q.compileAs result).outcome = .ok compiled ∧
      (∃ f, Listed {} compiled .select "select " f "e.LastName") ∧
      ∃ f, Listed {} compiled .select "select " f "Territory.Region" := by
  intro employee territory result calls
  obtain ⟨q, hq⟩ : ∃ q, (built {} (.fromAs employee "e") calls).outcome = .ok q := ⟨_, rfl⟩
  have hlabels : ((bindings (.fromAs employee "e") calls).map Binding.label).Nodup := by decide
  obtain ⟨compiled, hcompiled, hmembers⟩ :=
    projected_from_owner {} (.fromAs employee "e") calls q result rfl hlabels hq
  have hpicked : (choosing calls).filterMap Call.picked? = [] := rfl
  have hprojects (member : String) (hmember : member ∈ asked (shape result calls) []) :=
    (hmembers member hmember (by rw [hpicked]; exact List.forall_mem_nil _)).1
  obtain ⟨⟨f, hf, hname⟩, hnames⟩ := hprojects "LastName" (by decide)
  obtain ⟨⟨g, hg, hregion⟩, hregions⟩ := hprojects "Region" (by decide)
  exact ⟨q, compiled, hlabels, hq, hcompiled, ⟨f, (hnames f hf hname).2 (by decide)⟩,
    g, (hregions g hg hregion).2 (by decide)⟩

/-- The columns of a table without an alias are written under the alias of another table of its
entity that is joined later. -/
theorem later_alias_takes_columns :
    let employee : Entity := ⟨"Employee", [⟨"Id", .int, false⟩, ⟨"LastName", .string, false⟩]⟩
    let calls : List Call := [.joinAs employee "m" (.equals (.col "Id") (.constant (.int 1)))]
    ∃ q compiled, ((bindings (.from employee) calls).map Binding.label).Nodup ∧
      (built {} (.from employee) calls).outcome = .ok q ∧
      q.compile.outcome = .ok compiled ∧
      owner? (tables (.from employee) calls) "LastName" = some ⟨"Employee", none⟩ ∧
      compiled.sql =
        "select m.Id, m.LastName FROM Employee JOIN Employee m ON (m.Id = 1)" := by
  refine ⟨_, _, by decide, rfl, rfl, by decide, ?_⟩
  decide

end SqlComposer.Select
