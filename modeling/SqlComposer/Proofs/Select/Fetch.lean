import SqlComposer.Proofs.Schema
import SqlComposer.Proofs.Select.Traced
import SqlComposer.Session

/-!
# The converters of fetched rows

Rows of a query are converted by what its columns say, wherever in the statement they stand. A
column of the select list passes its converter on under its name in the result. When a condition, a
grouping or an ordering mentions the column's member, the member goes by its own name again, and a
value under another name is left as it is.
-/
namespace SqlComposer

def Row.convertedBy (k : String → Option Converter) (r : Row) : Row :=
  ⟨r.columns.map fun column =>
    (column.1, ((k column.1).map fun c => c.apply column.2).getD column.2)⟩

theorem Row.convert_eq {fields : List FieldDef} {k : String → Option Converter} {r : Row}
    (h : ∀ column ∈ r.columns, converter? fields column.1 = k column.1) :
    r.convert fields = r.convertedBy k := by
  rw [convert, convertedBy]
  congr 1
  refine List.map_congr_left fun (name, v) hcolumn => ?_
  simp only [h _ hcolumn]
  cases k name <;> rfl

def Part.KnowsColumn (p : Part) : Prop :=
  ∀ r, p.field? = some r → p.id? = some r.resultName

theorem Part.knowsColumn_field (key : Key) (f : ColumnRef) : (Part.field key f).KnowsColumn := by
  rintro r hr
  cases hr
  rfl

theorem Part.knowsColumn_of_none {p : Part} (hp : p.field? = none) : p.KnowsColumn :=
  fun r hr => absurd (hp.symm.trans hr) (Option.some_ne_none r).symm

theorem Part.knowsColumn_ofAtoms {key : Key} {atoms : List Atom} {p : Part}
    (hp : p ∈ ofAtoms key atoms) : p.KnowsColumn := by
  induction atoms generalizing key with
  | nil => cases hp
  | cons a atoms ih =>
    obtain rfl | hp := List.mem_cons.1 hp
    · cases a with
      | field f => exact knowsColumn_field key f
      | text | value | deferred => exact knowsColumn_of_none rfl
    · exact ih hp

theorem Block.knowsColumn {b : Block} {p : Part} (hp : p ∈ b.part.flatten) : p.KnowsColumn := by
  cases b with
  | text =>
    rw [List.mem_singleton.1 hp]
    exact Part.knowsColumn_of_none rfl
  | listing l =>
    rw [part, Part.flatten, Entry.flattenAll_part] at hp
    obtain rfl | hp := List.mem_cons.1 hp
    · exact Part.knowsColumn_of_none rfl
    · obtain ⟨e, -, rfl⟩ := List.mem_map.1 hp
      cases e with
      | column key f => exact Part.knowsColumn_field key f
      | parameter => exact Part.knowsColumn_of_none rfl
  | clause c =>
    rw [part, Part.clause, Part.flatten, Part.flattenAll_append, Part.flattenAll_ofAtoms] at hp
    obtain rfl | hp := List.mem_cons.1 hp
    · exact Part.knowsColumn_of_none rfl
    · obtain hp | hp := List.mem_append.1 hp
      · exact Part.knowsColumn_ofAtoms hp
      · rw [Part.flattenAll_eq] at hp
        obtain ⟨q, hq, hp⟩ := List.mem_flatMap.1 hp
        obtain ⟨a, -, rfl⟩ := List.mem_map.1 hq
        rw [Addition.part, Part.clause, Part.flatten, Part.flattenAll_ofAtoms] at hp
        obtain rfl | hp := List.mem_cons.1 hp
        · exact Part.knowsColumn_of_none rfl
        · exact Part.knowsColumn_ofAtoms hp

theorem FieldDef.foldl_matchPart {ps : List Part} (hps : ∀ p ∈ ps, p.KnowsColumn)
    (fields : List FieldDef) :
    ps.foldl matchPart fields =
      (ps.filterMap Part.field?).foldl
        (fun fields r => matchFirst r r.resultName fields) fields := by
  induction ps generalizing fields with
  | nil => rfl
  | cons p ps ih =>
    obtain ⟨hp, hps⟩ := List.forall_mem_cons.1 hps
    rw [List.foldl_cons, ih hps, matchPart]
    cases hr : p.field? with
    | none => rw [List.filterMap_cons_none hr]
    | some r => rw [hp r hr, List.filterMap_cons_some hr, List.foldl_cons]

theorem Outline.matchTree_draft (s : Outline) (fields : List FieldDef) :
    FieldDef.matchTree fields s.draft.toTree =
      s.draft.toTree.columns.foldl
        (fun fields r => FieldDef.matchFirst r r.resultName fields) fields := by
  refine FieldDef.foldl_matchPart (fun p hp => ?_) fields
  rw [Tree.flatten, draft, Part.flattenAll_eq, List.flatMap_map] at hp
  obtain ⟨b, -, hp⟩ := List.mem_flatMap.1 hp
  exact Block.knowsColumn hp

namespace Select

variable {c : Compiler} {o : Opening} {calls : List Call} {q : Select} {s : Outline}
  {chosen : Selection} {others : List ColumnRef}

/-- Columns that keep the members of an entity apart: each member is there once, and no column goes
by the name of another column or of another member. -/
structure Separate (e : Entity) (picked : List ColumnRef) : Prop where
  members : (e.members.map Member.name).Nodup
  once : picked.Pairwise fun f g => f.field ∈ e.members.map Member.name → f.field ≠ g.field
  names : (picked.map ColumnRef.resultName).Nodup
  others : ∀ f ∈ picked, f.resultName ∈ e.members.map Member.name → f.resultName = f.field

namespace Separate

variable {e : Entity} {present fields : List ColumnRef}

theorem of_unqualified (h : Separate e (present.map ColumnRef.unqualified)) : Separate e present where
  members := h.members
  once := List.pairwise_map.1 h.once
  names := by
    have hnames := h.names
    rwa [List.map_map] at hnames
  others f hf := h.others f.unqualified (List.mem_map_of_mem hf)

theorem field_mem_of_asked (h : Separate e present)
    (hfields : ∀ r ∈ fields, r.resultAlias = none ∧ r.field ∈ e.members.map Member.name)
    {f : ColumnRef} (hf : f ∈ present) (hasked : (fields.any fun r => Draft.answers r f) = true) :
    f.field ∈ e.members.map Member.name := by
  obtain ⟨r, hr, hanswers⟩ := List.any_eq_true.1 hasked
  have hmember := (hfields r hr).2
  rw [Draft.answers, Bool.or_eq_true, beq_iff_eq, beq_iff_eq] at hanswers
  obtain hfield | halias := hanswers
  · exact hfield ▸ hmember
  · have hname : f.resultName = r.field := by rw [ColumnRef.resultName, halias]; rfl
    rw [← h.others f hf (hname ▸ hmember), hname]
    exact hmember

theorem resultName_of_unmet
    (hfields : ∀ r ∈ fields, r.resultAlias = none ∧ r.field ∈ e.members.map Member.name)
    {f : ColumnRef} (hf : f ∈ Draft.unmet present fields) :
    f.resultName = f.field ∧ f.field ∈ e.members.map Member.name := by
  obtain ⟨halias, hmember⟩ := hfields f (Draft.mem_of_mem_unmet hf)
  exact ⟨by rw [ColumnRef.resultName, halias, Option.getD_none], hmember⟩

theorem apart_supply (h : Separate e present)
    (hfields : ∀ r ∈ fields, r.resultAlias = none ∧ r.field ∈ e.members.map Member.name) :
    (∀ f ∈ (Selection.supply ⟨present, false⟩ fields).columns,
        f.field ∈ e.members.map Member.name) ∧
      ColumnRef.Apart (e.members.map Member.name)
        (Selection.supply ⟨present, false⟩ fields).columns := by
  generalize hold : (present.filter fun f => fields.any fun r => Draft.answers r f) = old
  have hcolumns : (Selection.supply ⟨present, false⟩ fields).columns =
      old ++ Draft.unmet present fields := by
    rw [← hold]
    rfl
  have hsub : old.Sublist present := hold ▸ List.filter_sublist
  have hmember : ∀ f ∈ old, f.field ∈ e.members.map Member.name := by
    intro f hf
    rw [← hold, List.mem_filter] at hf
    exact h.field_mem_of_asked hfields hf.1 hf.2
  rw [hcolumns]
  refine ⟨fun f hf => ?member, ?fields, ?names, fun f hf hname => ?others⟩
  case member =>
    exact (List.mem_append.1 hf).elim (hmember f) fun hf => (resultName_of_unmet hfields hf).2
  case fields =>
    rw [List.map_append, List.nodup_append]
    refine ⟨?_, Draft.nodup_field_unmet present fields, ?_⟩
    · exact List.pairwise_map.2
        ((h.once.sublist hsub).imp_of_mem fun hf _ hne => hne (hmember _ hf))
    · rintro _ hleft _ hright
      obtain ⟨f, hf, rfl⟩ := List.mem_map.1 hleft
      obtain ⟨g, hg, rfl⟩ := List.mem_map.1 hright
      exact Draft.field_ne_of_mem_unmet (hsub.subset hf) hg
  case names =>
    rw [List.map_append, List.nodup_append]
    refine ⟨h.names.sublist (hsub.map _), ?_, ?_⟩
    · rw [List.map_congr_left fun f hf => (resultName_of_unmet hfields hf).1]
      exact Draft.nodup_field_unmet present fields
    · rintro _ hleft _ hright
      obtain ⟨f, hf, rfl⟩ := List.mem_map.1 hleft
      obtain ⟨g, hg, rfl⟩ := List.mem_map.1 hright
      obtain ⟨hname, hmember⟩ := resultName_of_unmet hfields hg
      -- a new column goes by its member, and no other column does
      intro hsame
      rw [hname] at hsame
      have hown := h.others f (hsub.subset hf) (hsame ▸ hmember)
      exact Draft.field_ne_of_mem_unmet (hsub.subset hf) hg (hown.symm.trans hsame)
  case others =>
    obtain hf | hf := List.mem_append.1 hf
    · exact h.others f (hsub.subset hf) hname
    · exact (resultName_of_unmet hfields hf).1

end Separate

theorem isMention_of_unqualified {r : ColumnRef} {field : String}
    (h : r.unqualified = .named field) : r.IsMention where
  resultAlias := (congrArg ColumnRef.resultAlias h :)
  converter := (congrArg ColumnRef.converter h :)
  columnType := (congrArg ColumnRef.columnType h :)

theorem projection_plain (q : Select) (result : Entity) :
    ∀ r ∈ q.projection result,
      r.resultAlias = none ∧ r.field ∈ result.members.map Member.name := by
  intro r hr
  refine ⟨?_, ?_⟩
  · obtain ⟨d, -, rfl⟩ := List.mem_map.1 hr
    exact (q.projectedField_plain d).1
  · have hfield := List.mem_map_of_mem (f := ColumnRef.field) hr
    rw [map_field_projection, asked] at hfield
    exact (List.mem_filter.1 hfield).1

theorem Traced.converters (h : Traced c o calls q s chosen)
    (hcalls : ∀ call ∈ calls, call.isForType = false) {result : Entity}
    (hseparate : Separate result (calls.filterMap Call.picked?)) {tree : Tree}
    (htree : tree = (s.supply (q.projection result)).draft.toTree) :
    ColumnRef.Apart (result.members.map Member.name) tree.selected ∧
      (∀ f ∈ tree.selected, f.field ∈ result.members.map Member.name) ∧
      ∀ name, Row.converter? (FieldDef.matchTree (Schema.ofEntity result).fields tree) name =
        FieldDef.converterFor? (result.members.map Member.name) tree.selected
          (calls.flatMap Call.mentioned) name := by
  obtain ⟨hfixed, hpicked⟩ := h.picked hcalls
  obtain ⟨present, isFixed⟩ := chosen
  obtain rfl : isFixed = false := hfixed
  obtain ⟨others, hover, hothers⟩ := h.columns
  have hsupplied := hover.supply (q.projection result)
  obtain ⟨behind, hbehind, hcolumns⟩ := hsupplied.columns
  have hpresent : Separate result present := .of_unqualified (hpicked ▸ hseparate)
  obtain ⟨hmember, hapart⟩ := hpresent.apart_supply (q.projection_plain result)
  rw [← hsupplied.selected, ← htree] at hmember hapart hcolumns
  -- what stands behind the select list mentions columns and says no more about them
  have hmentions : ∀ r ∈ behind, r.IsMention := by
    intro r hr
    have hmem := List.mem_map_of_mem (f := ColumnRef.unqualified) (hbehind.subset hr)
    rw [hothers] at hmem
    obtain ⟨field, -, hfield⟩ := List.mem_map.1 hmem
    exact isMention_of_unqualified hfield.symm
  have hmentioned : ∀ field, field ∈ behind.map ColumnRef.field ↔
      field ∈ calls.flatMap Call.mentioned := by
    intro field
    have hfields := congrArg (List.map ColumnRef.field) hothers
    rw [List.map_map, List.map_map] at hfields
    rw [(hbehind.map ColumnRef.field).mem_iff, ← List.map_id (calls.flatMap Call.mentioned)]
    exact iff_of_eq (congrArg (field ∈ ·) hfields)
  refine ⟨hapart, hmember, fun name => ?_⟩
  rw [htree, Outline.matchTree_draft, ← htree, hcolumns]
  rw [← Schema.map_memberName] at hapart ⊢
  rw [FieldDef.converter?_foldl_matchFirst (Schema.fresh result)
    (Schema.map_memberName result ▸ hpresent.members) hapart hmentions]
  simp only [FieldDef.converterFor?, FieldDef.nameAfter, hmentioned]

/-- Fetched rows keep their order, their columns and their values, but a value is converted by the
converter for its name: that of the selected column, but none if the column goes by another name
than its member and the member is mentioned behind the select list. -/
theorem fetch_converts (c : Compiler) (o : Opening) (calls : List Call) (q : Select)
    (hcalls : ∀ call ∈ calls, call.source? = none ∧ call.isForType = false)
    (hseparate : Separate o.entity (calls.filterMap Call.picked?))
    (hbuilt : (built c o calls).outcome = .ok q) :
    ∃ compiled, q.compile.outcome = .ok compiled ∧
      let members := o.entity.members.map Member.name
      let columns := compiled.tree.selected
      let mentioned := calls.flatMap Call.mentioned
      let converter := FieldDef.converterFor? members columns mentioned
      (∀ (σ : Type) (p : Provider σ) (before after : σ) (rows : List Row),
        (p.query compiled.sql).run before = (.ok rows, after) →
        (Session.fetch p o.entity compiled).run before =
          (.ok (rows.map (Row.convertedBy converter)), after)) ∧
      ∀ f ∈ columns,
        (∀ member ∈ members, member ≠ f.field →
          Text.sameName (FieldDef.nameAfter columns mentioned member) f.resultName = false) →
        converter f.resultName =
          if f.field ∈ mentioned ∧ Text.sameName f.field f.resultName = false then none
          else f.converter := by
  obtain ⟨-, hrun⟩ := built_eq_ok hbuilt
  obtain ⟨s, chosen, h⟩ := Traced.run hrun
  obtain ⟨hapart, hmember, hconverters⟩ :=
    h.converters (fun call hcall => (hcalls call hcall).2) hseparate rfl
  have hcompiled := h.outcome_compileAs o.entity
  refine ⟨_, by rw [compile, h.entity hcalls]; exact hcompiled, fun σ p before after rows hquery => ?_,
    fun f hf honly => ?_⟩
  · have hconvert : rows.map (Row.convert _) = rows.map (Row.convertedBy _) :=
      List.map_congr_left fun row _ => Row.convert_eq fun column _ => hconverters column.1
    rw [Session.fetch, StateT.run_bind, hquery, ← hconvert]
    rfl
  · exact FieldDef.converterFor?_resultName hapart hf (hmember f hf) honly

/-- A column under another name, in a query with a condition on another member. -/
theorem fetch_converts_renamed :
    let customer : Entity := ⟨"Customer", [⟨"Id", .int, false⟩, ⟨"Name", .string, true⟩]⟩
    let loud : Converter := ⟨fun v => .string (v.text ++ "!")⟩
    let calls : List Call :=
      [.mapWith (.col "Name") (some "CustomerName") loud,
        .filter (.equals (.col "Id") (.constant (.int 1)))]
    let script : Script := { rows := [⟨[("CustomerName", .string "Bob"), ("Id", .int 1)]⟩] }
    (∀ call ∈ calls, call.source? = none ∧ call.isForType = false) ∧
      Separate customer (calls.filterMap Call.picked?) ∧
      ∃ q compiled, (built {} (.from customer) calls).outcome = .ok q ∧
        q.compile.outcome = .ok compiled ∧
        (Session.fetch script.provider customer compiled).run [] =
          (.ok [⟨[("CustomerName", .string "Bob!"), ("Id", .int 1)]⟩], [.query compiled.sql]) := by
  intro customer loud calls script
  have hcalls : ∀ call ∈ calls, call.source? = none ∧ call.isForType = false := by decide
  have hseparate : Separate customer (calls.filterMap Call.picked?) :=
    ⟨by decide, by decide, by decide, by decide⟩
  obtain ⟨compiled, hcompiled, hfetch, hconverter⟩ :=
    fetch_converts {} (.from customer) calls _ hcalls hseparate rfl
  have hselected : compiled.tree.selected =
      [{ field := "Name", resultAlias := some "CustomerName", entity := some "Customer",
          converter := some loud },
        { field := "Id", entity := some "Customer" }] := by
    obtain rfl := Except.ok.inj (hcompiled.symm.trans rfl)
    rfl
  rw [hselected] at hfetch hconverter
  have hname := hconverter _ List.mem_cons_self (by decide)
  have hid := hconverter _ (List.mem_cons_of_mem _ List.mem_cons_self) (by decide)
  rw [if_neg (by decide)] at hname hid
  have hrows := hfetch _ script.provider [] [.query compiled.sql] script.rows rfl
  simp only [ColumnRef.resultName, Option.getD_some, Option.getD_none] at hname hid
  simp only [script, List.map_cons, List.map_nil, Row.convertedBy, hname, hid] at hrows
  exact ⟨hcalls, hseparate, _, compiled, rfl, hcompiled, hrows⟩

/-- A condition on the member of a column under another name takes its converter away. -/
theorem mention_loses_converter :
    let customer : Entity := ⟨"Customer", [⟨"Id", .int, false⟩, ⟨"Name", .string, true⟩]⟩
    let loud : Converter := ⟨fun v => .string (v.text ++ "!")⟩
    let calls : List Call :=
      [.mapWith (.col "Name") (some "CustomerName") loud,
        .filter (.equals (.col "Name") (.constant (.string "Bob")))]
    let row : Row := ⟨[("CustomerName", .string "Bob"), ("Id", .int 1)]⟩
    ∃ q compiled, (built {} (.from customer) calls).outcome = .ok q ∧
      q.compile.outcome = .ok compiled ∧
      (compiled.tree.selected.find? fun f => f.resultName == "CustomerName").bind
        ColumnRef.converter = some loud ∧
      (Session.fetch (Script.provider { rows := [row] }) customer compiled).run [] =
        (.ok [row], [.query compiled.sql]) :=
  ⟨_, _, rfl, rfl, rfl, rfl⟩

end Select

end SqlComposer
