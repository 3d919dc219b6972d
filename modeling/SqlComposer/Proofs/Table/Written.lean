import Mathlib.Data.Set.List
import SqlComposer.Proofs.Table.Items
import SqlComposer.Proofs.Table.Placed

/-!
# How a definition is written

`create` compiles after every sequence of calls that is not refused. Unless a call alters the table,
its text is the opening, the keys in front of the columns, the columns and the keys behind them.
-/
namespace SqlComposer

theorem Dialect.isOpen_createTable (d : Dialect) (name : String) :
    Text.IsOpen (Text.dropLineBreaks (d.createTable name)) := by
  have hbracket (s : String) : Text.dropLineBreaks (s ++ " (") = Text.dropLineBreaks s ++ " (" :=
    Text.dropLineBreaks_append s " ("
  obtain ⟨s, hs⟩ : ∃ s, d.createTable name = s ++ " (" := by
    cases d <;> exact ⟨_, rfl⟩
  rw [hs, hbracket]
  exact Text.isOpen_append (c := '(') rfl (.inr rfl)

def Part.decl? : Part → Option ColumnDecl
  | .leaf _ (.column c) => some c
  | _ => none

theorem Compiler.exists_compile (c : Compiler) {t : Tree} (hshape : t.shape = .statement)
    (hstray : ∀ g ∈ t.flatten, ¬g.isStray = true) :
    ∃ compiled, (c.compile t).outcome = .ok compiled ∧ compiled.tree = t := by
  have hfault := (c.fault?_compile hshape).trans
    (congrArg (Option.map _) (List.find?_eq_none.2 hstray))
  obtain ⟨compiled, hcompiled⟩ := Rendering.fault?_eq_none.1 hfault
  refine ⟨compiled, hcompiled, ?_⟩
  rw [compile] at hcompiled
  obtain ⟨sql, -, hpure⟩ := Rendering.outcome_bind_eq_ok hcompiled
  cases hpure
  rfl

namespace Table

def createText (d : Dialect) (name : String) (items : List String) : String :=
  d.createTable name ++ Text.joinWith ", " items ++ ")"

theorem dropLineBreaks_createText (d : Dialect) (name : String) (items : List String) :
    Text.dropLineBreaks (createText d name items) = Text.dropLineBreaks (d.createTable name) ++
      Text.dropLineBreaks (Text.joinWith ", " items) ++ ")" := by
  rw [createText, Text.dropLineBreaks_append, Text.dropLineBreaks_append]
  rfl

def columnParts (t : Tree) : List Part :=
  t.flatten.filter fun p => p.tag == .column

/-- Every column of a statement stands in front of every key. -/
def ColumnsLead (t : Tree) : Prop :=
  t.flatten.Pairwise fun p p' => p.tag = .tableKey → p'.tag ≠ .column

instance (t : Tree) : Decidable (ColumnsLead t) :=
  inferInstanceAs (Decidable (t.flatten.Pairwise fun p p' => p.tag = .tableKey → p'.tag ≠ .column))

structure Lists (compiled : Compiled) (d : Dialect) (name : String) (before : List String)
    (columns : List ColumnDecl) (behind : List String) : Prop where
  sql : compiled.sql = Text.dropLineBreaks
    (createText d name (before ++ columns.map (columnText d) ++ behind))
  decls : (columnParts compiled.tree).map Part.decl? = columns.map some

variable {q : Table} {c : Compiler} {s : Schema} {requests : List Request}
  {before behind marks : List Part} {columns : List Column} {compiled : Compiled}

theorem isFlat_of_requested (h : requested c s requests = .ok q) : q.IsFlat := by
  have hyields := yields_requests c s requests
  rw [requested] at h
  rw [h] at hyields
  cases hyields with
  | ok hflat => exact hflat

theorem pairwise_leads_iff (hbefore : ∀ p ∈ before, (p.tag == .column) = false)
    (hbehind : ∀ p ∈ behind, (p.tag == .column) = false) (columns : List Column) :
    (before ++ columns.map Column.part ++ behind).Pairwise
        (fun p p' => p.tag = .tableKey → p'.tag ≠ .column) ↔
      (∀ p ∈ before, p.tag ≠ .tableKey) ∨ columns = [] := by
  have hcolumn : ∀ p ∈ columns.map Column.part, p.tag = .column := by
    rw [List.forall_mem_map]
    exact fun _ _ => rfl
  have hother {ps : List Part} (hps : ∀ p ∈ ps, (p.tag == Tag.column) = false) :
      ∀ p ∈ ps, p.tag ≠ .column := fun p hp => by simpa using hps p hp
  constructor
  · intro h
    by_cases hcolumns : columns = []
    · exact .inr hcolumns
    · refine .inl fun p hp hkey => ?_
      obtain ⟨e, he⟩ := List.exists_mem_of_ne_nil columns hcolumns
      have hsplit := (List.pairwise_append.1 (List.pairwise_append.1 h).1).2.2
      exact hsplit p hp e.part (List.mem_map_of_mem he) hkey rfl
  · intro h
    refine List.pairwise_append.2 ⟨List.pairwise_append.2 ⟨?_, ?_, ?_⟩, ?_, ?_⟩
    · exact List.pairwise_of_forall_mem_list fun _ _ p hp _ => hother hbefore p hp
    · refine List.pairwise_of_forall_mem_list fun p hp _ _ hkey => ?_
      cases (hcolumn p hp).symm.trans hkey
    · intro p hp p' hp' hkey
      rcases h with h | rfl
      · exact absurd hkey (h p hp)
      · cases hp'
    · exact List.pairwise_of_forall_mem_list fun _ _ p hp _ => hother hbehind p hp
    · exact fun _ _ p hp _ => hother hbehind p hp

/-! ### Marks -/

theorem text?_eq_constraint? (d : Dialect) {e : Entry} (h : IsMark e.part) :
    e.2.text? d = e.part.constraint? := by
  obtain ⟨key, item⟩ := e
  cases item with
  | column => cases h.ne_column
  | ignored | constraint => rfl

theorem exists_entries (d : Dialect) (hentry : ∀ p ∈ marks, ∃ e : Entry, e.part = p)
    (hmark : ∀ p ∈ marks, IsMark p) : ∃ entries : List Entry, entries.map Entry.part = marks ∧
      texts d entries = marks.filterMap Part.constraint? := by
  have hrange : marks ∈ Set.range (List.map Entry.part) := by
    rw [Set.range_list_map]
    exact hentry
  obtain ⟨entries, rfl⟩ := hrange
  refine ⟨entries, rfl, ?_⟩
  rw [List.filterMap_map]
  refine List.filterMap_congr fun e he => ?_
  exact text?_eq_constraint? d (hmark _ (List.mem_map_of_mem he))

namespace Defined

theorem notColumn (h : q.Defined c s requests before behind columns) :
    (∀ p ∈ before, (p.tag == .column) = false) ∧ ∀ p ∈ behind, (p.tag == .column) = false := by
  rw [← List.forall_mem_append]
  exact fun p hp => (h.isMark p hp).ne_column

theorem filter_column (h : q.Defined c s requests before behind columns) :
    (q.definition.parts.filter fun p => p.tag == .column) = columns.map Column.part := by
  obtain ⟨first, last, hparts⟩ := h.parts
  obtain ⟨hbefore, hbehind⟩ := h.notColumn
  have hnone {ps : List Part} (hps : ∀ p ∈ ps, (p.tag == Tag.column) = false) :
      (ps.filter fun p => p.tag == .column) = [] :=
    List.filter_eq_nil_iff.2 fun p hp => by simp [hps p hp]
  have hall : ((columns.map Column.part).filter fun p => p.tag == .column) =
      columns.map Column.part :=
    List.filter_eq_self.2 fun p hp => by
      obtain ⟨e, -, rfl⟩ := List.mem_map.1 hp
      rfl
  rw [hparts, List.filter_cons_of_neg Bool.false_ne_true, List.filter_append, List.filter_append,
    List.filter_append, hnone hbefore, hnone hbehind, hall]
  simp [Part.text, Part.tag, Part.head]

theorem forall_ne_tableKey_iff (hmark : ∀ p ∈ marks, IsMark p) :
    (∀ p ∈ marks, p.tag ≠ .tableKey) ↔ marks.filterMap Part.constraint? = [] := by
  rw [List.filterMap_eq_nil_iff]
  refine forall₂_congr fun p hp => ?_
  rw [← Option.not_isSome_iff_eq_none, (hmark p hp).isSome_constraint?, beq_iff_eq]

theorem columnsLead_iff (h : q.Defined c s requests before behind columns)
    (htree : compiled.tree.flatten = q.definition.parts) :
    ColumnsLead compiled.tree ↔ KeysFollow s requests := by
  obtain ⟨first, last, hparts⟩ := h.parts
  obtain ⟨hbefore, hbehind⟩ := h.notColumn
  let opening := Part.text first .createTable (c.dialect.createTable s.name)
  have hfront : ∀ p ∈ opening :: before, (p.tag == .column) = false :=
    List.forall_mem_cons.2 ⟨rfl, hbefore⟩
  have hback : ∀ p ∈ behind ++ [Part.text last .plain ")"], (p.tag == .column) = false :=
    List.forall_mem_append.2 ⟨hbehind, List.forall_mem_singleton.2 rfl⟩
  have hopening : opening.tag ≠ .tableKey := (by decide : Tag.createTable ≠ .tableKey)
  have hleads := pairwise_leads_iff hfront hback columns
  rw [List.forall_mem_cons, forall_ne_tableKey_iff (List.forall_mem_append.1 h.isMark).1,
    and_iff_right hopening] at hleads
  rw [ColumnsLead, htree, hparts, ← h.keysFollow, ← h.columns_eq, List.map_eq_nil_iff, ← hleads]
  simp only [List.cons_append, List.append_assoc, opening]

theorem outcome_create (h : q.Defined c s requests before behind columns)
    (halter : ∀ request ∈ requests, request.isAlteration = false) :
    q.create.outcome.map Compiled.sql = .ok (Text.dropLineBreaks (createText c.dialect s.name
      (before.filterMap Part.constraint? ++
        (columns.map Prod.snd).map (columnText c.dialect) ++
          behind.filterMap Part.constraint?))) := by
  obtain ⟨first, last, hparts⟩ := h.parts
  have hmark := List.forall_mem_append.1 h.isMark
  have hentry := List.forall_mem_append.1 (h.isEntry halter)
  obtain ⟨front, hfront, htexts⟩ := exists_entries c.dialect hentry.1 hmark.1
  obtain ⟨back, hback, htexts'⟩ := exists_entries c.dialect hentry.2 hmark.2
  let middle : List Entry := columns.map fun e => (e.1, .column e.2)
  have hmiddle : middle.map Entry.part = columns.map Column.part := List.map_map
  have hcolumns : texts c.dialect middle = (columns.map Prod.snd).map (columnText c.dialect) := by
    rw [texts, List.filterMap_map, List.map_map]
    exact congrFun List.filterMap_eq_map' columns
  have hall : (front ++ middle ++ back).map Entry.part =
      before ++ columns.map Column.part ++ behind := by
    rw [List.map_append, List.map_append, hfront, hmiddle, hback]
  have hkeys : ((front ++ middle ++ back).map Prod.fst).Nodup := by
    have hfst := h.keys
    rw [← hall, List.map_map] at hfst
    rwa [← funext Entry.key_part]
  have hpartsOf : q.definition.toTree.parts =
      partsOf (c.dialect.createTable s.name) first last (front ++ middle ++ back) := by
    rw [partsOf, hall, hparts]
  have hitems : texts c.dialect (front ++ middle ++ back) =
      texts c.dialect front ++ texts c.dialect middle ++ texts c.dialect back := by
    rw [texts, List.filterMap_append, List.filterMap_append]
    rfl
  rw [create, h.compiler, outcome_compile h.shape hpartsOf (c.dialect.isOpen_createTable _) hkeys,
    hitems, htexts, hcolumns, htexts', dropLineBreaks_createText]

theorem map_decl? (h : q.Defined c s requests before behind columns)
    (htree : compiled.tree.flatten = q.definition.parts) :
    (columnParts compiled.tree).map Part.decl? = (definedColumns s requests).map some := by
  rw [columnParts, htree, h.filter_column, ← h.columns_eq, List.map_map, List.map_map]
  rfl

end Defined

/-- `create` is not refused, and writes the definition that the calls decide on. -/
theorem exists_create_of_requested (h : requested c s requests = .ok q) :
    ∃ compiled before behind columns, q.create.outcome = .ok compiled ∧
      compiled.tree.flatten = q.definition.parts ∧
      q.Defined c s requests before behind columns := by
  obtain ⟨front, back, collected, hcollected⟩ := collected_of_requested h
  obtain ⟨before, behind, columns, hdefined⟩ := hcollected.defined
  have hflat := flat_definition (isFlat_of_requested h)
  obtain ⟨compiled, hcompiled, htree⟩ := q.compiler.exists_compile hdefined.shape hflat.not_stray
  refine ⟨compiled, before, behind, columns, hcompiled, ?_, hdefined⟩
  rw [htree, hflat.flatten_eq]

theorem exists_lists (c : Compiler) (h : ∀ request ∈ requests, request.IsAccepted s) :
    ∃ q compiled before behind, requested c s requests = .ok q ∧
      q.create.outcome = .ok compiled ∧
      Lists compiled c.dialect s.name before (definedColumns s requests) behind ∧
      before ++ behind = keyTexts requests ∧
      (before = [] ∨ definedColumns s requests = [] ↔ KeysFollow s requests) ∧
      (ColumnsLead compiled.tree ↔ KeysFollow s requests) := by
  obtain ⟨q, hq⟩ := exists_requested c h
  obtain ⟨compiled, before, behind, columns, hcompiled, htree, hdefined⟩ :=
    exists_create_of_requested hq
  have hsql := hdefined.outcome_create fun request hrequest =>
    Request.isAlteration_of_isAccepted (h request hrequest)
  rw [hcompiled, hdefined.columns_eq] at hsql
  refine ⟨q, compiled, before.filterMap Part.constraint?, behind.filterMap Part.constraint?, hq,
    hcompiled, ⟨Except.ok.inj hsql, hdefined.map_decl? htree⟩, ?_, hdefined.keysFollow,
    hdefined.columnsLead_iff htree⟩
  rw [← List.filterMap_append, hdefined.constraints]

end Table

end SqlComposer
