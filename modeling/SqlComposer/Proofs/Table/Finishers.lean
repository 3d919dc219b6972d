import SqlComposer.Proofs.Table.Kinds

/-!
# Finishers and what was collected for others

A finisher writes everything that was collected, whatever it was collected for. Its statement is one
of its own kind exactly if every call suits the finisher; what the others have collected stands in
the statement beside it.
-/
namespace SqlComposer

theorem Compiler.joinPieces_map (l : List String) :
    joinPieces (l.map fun s => ⟨s, false⟩) = Text.joinFragments l := by
  rw [joinPieces_eq_joinFragments, List.map_map]
  exact congrArg Text.joinFragments (List.map_id l)

theorem Text.contains_joinFragments {s : String} {l : List String} (hs : s ∈ l) :
    Contains (joinFragments l) (dropLineBreaks s) := by
  have hpiece : (⟨s, false⟩ : Piece) ∈ l.map fun s => ⟨s, false⟩ := List.mem_map_of_mem hs
  have hcontains := Compiler.contains_joinPieces hpiece
  rw [Compiler.joinPieces_map] at hcontains
  exact hcontains

theorem Tree.IsFlat.compile_eq {t : Tree} (h : t.IsFlat) (hshape : t.shape = .statement)
    (c : Compiler) :
    ∃ compiled, (c.compile t).outcome = .ok compiled ∧ compiled.sql =
      Text.joinFragments (t.parts.map (Part.leafText (t.view c.dialect c.qualify))) := by
  have hrender {v : View} {ps : List Part} (h : ∀ p ∈ ps, p.isGroup = false) :
      (Part.renderAll v ps).outcome = .ok ((ps.map (Part.leafText v)).map fun s => ⟨s, false⟩) := by
    induction ps with
    | nil => rfl
    | cons p ps ih =>
      obtain ⟨hp, hps⟩ := List.forall_mem_cons.1 h
      cases p with
      | group => cases hp
      | leaf =>
        simp only [Part.renderAll, Rendering.outcome_bind, ih hps]
        rfl
  refine ⟨⟨Text.joinFragments (t.parts.map (Part.leafText (t.view c.dialect c.qualify))), t⟩, ?_,
    rfl⟩
  rw [Compiler.compile, Compiler.sql, hshape, Rendering.outcome_bind, Compiler.statementSql,
    Rendering.outcome_bind, hrender h, ← Compiler.joinPieces_map]
  rfl

namespace Table

namespace Finish

def fault? (requests : List Request) : Finish → Option Fault
  | .create | .drop => none
  | .compile =>
    if requests.any Request.isAlteration then none
    else some (.missingArgument "column" "an ALTER TABLE needs a column operation")
  | .rename newName =>
    if newName = "" then some (.missingArgument "new_name" "a table needs a name") else none

def tree (q : Table) : Finish → Tree
  | .create => q.definition.toTree
  | .compile => q.draft.toTree
  | .rename newName =>
    q.draft.add (.properties q.draft.nextKey .renameTable
      ((Properties.empty.set .key (some q.name)).set .value (some newName)))
  | .drop => (q.draft.addText .dropTable q.name).toTree

/-- One statement of a finisher's own kind, with all that was collected for it. -/
inductive Owns (c : Compiler) (s : Schema) (requests : List Request) : Finish → String → Prop where
  | create (before behind : List String) :
      before ++ behind = keyTexts requests →
      Owns c s requests .create (createText c.dialect s.name
        (before ++ (definedColumns s requests).map (columnText c.dialect) ++ behind))
  | compile (operation : String) :
      requests.filterMap (Request.operation? c.dialect s) = [operation] →
      Owns c s requests .compile ("ALTER TABLE " ++ s.name ++ " " ++ operation)
  | rename (newName : String) :
      Owns c s requests (.rename newName) (c.dialect.renameTable s.name newName)
  | drop : Owns c s requests .drop ("DROP TABLE " ++ s.name)

end Finish

variable {q : Table} {c : Compiler} {s : Schema} {request : Request} {requests : List Request}
  {made : List (List Part)} {ps : List Part} {d : Dialect} {v : View} {finish : Finish}

theorem leafText_of_outcome {p : Part} {text : String} (hp : p.isGroup = false)
    (h : (p.render v).outcome = .ok text) : p.leafText v = text := by
  cases p with
  | group => cases hp
  | leaf => exact Except.ok.inj h

theorem leafText_entry (v : View) (e : Entry) : e.part.leafText v = e.written v := by
  refine leafText_of_outcome ?_ e.outcome_render
  obtain ⟨key, item⟩ := e
  cases item <;> rfl

/-! ### All parts -/

namespace Made

theorem exists_makes (h : q.Made c s requests made) {p : Part} (hp : p ∈ q.draft.parts) :
    ∃ request ps, p ∈ ps ∧ Makes c.dialect s request ps := by
  obtain ⟨ps, hps, hp⟩ := List.mem_flatten.1 (h.perm.mem_iff.1 hp)
  obtain ⟨request, -, hmakes⟩ := exists_mem_of_forall₂ h.makes.flip hps
  exact ⟨request, ps, hp, hmakes⟩

theorem forall_parts_iff (h : q.Made c s requests made) {P : Part → Prop} {Q : Request → Prop}
    (hmakes : ∀ request ps, Makes c.dialect s request ps → ((∀ p ∈ ps, P p) ↔ Q request)) :
    (∀ p ∈ q.draft.parts, P p) ↔ ∀ request ∈ requests, Q request := by
  have hmade {requests : List Request} {made : List (List Part)}
      (h : List.Forall₂ (Makes c.dialect s) requests made) :
      (∀ p ∈ made.flatten, P p) ↔ ∀ request ∈ requests, Q request := by
    induction h with
    | nil => simp
    | cons hfirst _ ih =>
      rw [List.flatten_cons, List.forall_mem_append, List.forall_mem_cons, hmakes _ _ hfirst, ih]
  simp only [h.perm.mem_iff, hmade h.makes]

theorem any_isAlteration (h : q.Made c s requests made) :
    requests.any Request.isAlteration = q.draft.contains .alterTable := by
  rw [h.contains_alterTable, Bool.eq_iff_iff, List.any_eq_true, List.any_eq_true]
  refine exists_congr fun request => and_congr_right fun hrequest => ?_
  obtain ⟨ps, -, hmakes⟩ := exists_mem_of_forall₂ h.makes hrequest
  rw [hmakes.isSome_operation?]

end Made

theorem Finish.apply_eq (h : q.Made c s requests made) (finish : Finish) :
    finish.apply q =
      match finish.fault? requests with
      | some fault => throw fault
      | none => c.compile (finish.tree q) := by
  rw [← h.compiler]
  cases finish with
  | create | drop => rfl
  | compile =>
    rw [Finish.apply, Table.compile, fault?, h.any_isAlteration]
    split_ifs <;> rfl
  | rename newName =>
    rw [Finish.apply, Table.rename, fault?]
    split_ifs <;> rfl

theorem exists_definition (h : requested c s requests = .ok q) :
    ∃ (first last : Key) (before behind : List Part) (columns : List Column), q.definition.parts =
        .text first .createTable (c.dialect.createTable s.name) ::
          (before ++ columns.map Column.part ++ behind ++ [.text last .plain ")"]) ∧
      q.definition.shape = .statement ∧
      ((before ++ columns.map Column.part ++ behind).map Part.key).Nodup ∧
      (∀ p ∈ before ++ behind, IsMark p) ∧
      before ++ behind = q.draft.parts.filter (fun p => p.tag != .column) ∧
      columns.map Prod.snd = definedColumns s requests ∧
      (before ++ behind).filterMap Part.constraint? = keyTexts requests := by
  obtain ⟨front, back, collected, hcollected⟩ := collected_of_requested h
  obtain ⟨d, before, behind, columns, hdefinition, hplacing, hbeside, hcolumns, -⟩ :=
    hcollected.exists_defined
  have hdraft : q.draft.parts.filter (fun p => p.tag != .column) = front ++ back := by
    obtain ⟨hfront, hback⟩ := hcollected.notColumn
    have hself {ps : List Part} (hps : ∀ p ∈ ps, (p.tag == Tag.column) = false) :
        ps.filter (fun p => p.tag != .column) = ps :=
      List.filter_eq_self.2 fun p hp => by simp [bne, hps p hp]
    have hnone : (collected.map Column.part).filter (fun p => p.tag != .column) = [] := by
      rw [List.filter_eq_nil_iff, List.forall_mem_map]
      exact fun _ _ => Bool.false_ne_true
    rw [hcollected.parts, List.filter_append, List.filter_append, hself hfront, hself hback, hnone,
      List.append_nil]
  have hkeys := hplacing.given.nodup
  rw [List.map_nil, List.append_nil, hplacing.parts, List.map_cons, List.nodup_cons] at hkeys
  refine ⟨q.draft.nextKey, d.nextKey, before, behind, columns, ?_, ?_, hkeys.2, hplacing.isMark,
    hbeside.trans hdraft.symm, hcolumns, ?_⟩
  · rw [hdefinition]
    change d.parts ++ [_] = _
    rw [hplacing.parts]
    rfl
  · rw [hdefinition]
    exact hplacing.shape
  · rw [hbeside, hcollected.constraints]

theorem Made.tag_cases (h : q.Made c s requests made) {p : Part} (hp : p ∈ q.draft.parts) :
    p.tag.alters = true ∨ p.tag.isTableItem = true ∨ p.tag = .ignoredColumn := by
  obtain ⟨request, ps, hp, hmakes⟩ := h.exists_makes hp
  rcases hmakes.tag_cases hp with halters | ⟨⟨key, item⟩, rfl⟩
  · exact .inl halters
  · cases item with
    | ignored => exact .inr (.inr rfl)
    | column | constraint => exact .inr (.inl rfl)

/-- A statement of what was collected and of what a finisher adds, which alone is of its kind. -/
structure Finished (q : Table) (c : Compiler) (s : Schema) (requests : List Request)
    (finish : Finish) : Prop where
  flat : (finish.tree q).IsFlat
  shape : (finish.tree q).shape = .statement
  mem_iff : ∀ p, finish.keeps p.tag = false → (p ∈ (finish.tree q).parts ↔ p ∈ q.draft.parts)
  owns : ∃ own, finish.Owns c s requests own ∧
    Text.joinFragments (((finish.tree q).parts.filter fun p => finish.keeps p.tag).map
      (Part.leafText ((finish.tree q).view c.dialect c.qualify))) = Text.dropLineBreaks own

theorem Made.keeps_eq_false (h : q.Made c s requests made) (finish : Finish) (hcreate : finish ≠ .create)
    (hcompile : finish ≠ .compile) {p : Part} (hp : p ∈ q.draft.parts) :
    finish.keeps p.tag = false := by
  rw [← Bool.not_eq_true]
  rcases h.tag_cases hp with halters | hitem | hignored
  · rwa [Finish.keeps_alters halters]
  · rwa [Finish.keeps_item hitem]
  · rw [hignored]
    cases finish with
    | create => exact absurd rfl hcreate
    | compile | rename | drop => exact Bool.false_ne_true

theorem finished_add (h : requested c s requests = .ok q) {p : Part} (hp : p.isGroup = false)
    (hparts : (finish.tree q).parts = q.draft.parts ++ [p])
    (hshape : (finish.tree q).shape = q.draft.shape) (hkeep : finish.keeps p.tag = true)
    (hfinish : ∀ p ∈ q.draft.parts, finish.keeps p.tag = false)
    (howns : finish.Owns c s requests (p.leafText ((finish.tree q).view c.dialect c.qualify))) :
    Finished q c s requests finish := by
  obtain ⟨_, _, _, hcollected⟩ := collected_of_requested h
  refine ⟨?_, hshape.trans hcollected.shape, fun p' hp' => ?_, _, howns, ?_⟩
  · rw [Tree.IsFlat, hparts]
    exact List.forall_mem_append.2 ⟨isFlat_of_requested h, List.forall_mem_singleton.2 hp⟩
  · rw [hparts, List.mem_append, List.mem_singleton, or_iff_left_iff_imp]
    rintro rfl
    rw [hkeep] at hp'
    cases hp'
  · have hnone : (q.draft.parts.filter fun p => finish.keeps p.tag) = [] :=
      List.filter_eq_nil_iff.2 fun p hp => by simp [hfinish p hp]
    have hself : ([p].filter fun p => finish.keeps p.tag) = [p] :=
      List.filter_eq_self.2 (List.forall_mem_singleton.2 hkeep)
    rw [hparts, List.filter_append, hnone, hself]
    exact Text.joinFragments_singleton _

theorem finished_drop (h : requested c s requests = .ok q) (hmade : q.Made c s requests made) :
    Finished q c s requests .drop := by
  have hkeeps : ∀ p ∈ q.draft.parts, Finish.drop.keeps p.tag = false :=
    fun p hp => hmade.keeps_eq_false .drop nofun nofun hp
  refine finished_add h (p := .text q.draft.nextKey .dropTable q.name) rfl rfl rfl rfl hkeeps ?_
  rw [name, hmade.schema]
  exact .drop

theorem finished_rename (h : requested c s requests = .ok q) (hmade : q.Made c s requests made)
    (newName : String) : Finished q c s requests (.rename newName) := by
  have hkeeps : ∀ p ∈ q.draft.parts, (Finish.rename newName).keeps p.tag = false :=
    fun p hp => hmade.keeps_eq_false (.rename newName) nofun nofun hp
  refine finished_add h (p := .properties q.draft.nextKey .renameTable
      ((Properties.empty.set .key (some q.name)).set .value (some newName))) rfl rfl rfl rfl hkeeps ?_
  rw [name, hmade.schema]
  exact .rename newName

theorem Made.exists_operation (h : q.Made c s requests made)
    (halter : requests.any Request.isAlteration = true) :
    ∃ operation, requests.filterMap (Request.operation? c.dialect s) = [operation] := by
  rw [h.any_isAlteration, h.contains_alterTable, List.any_eq_true] at halter
  obtain ⟨request, hrequest, hsome⟩ := halter
  obtain ⟨operation, hoperation⟩ := Option.isSome_iff_exists.1 hsome
  have hmem : operation ∈ requests.filterMap (Request.operation? c.dialect s) :=
    List.mem_filterMap.2 ⟨request, hrequest, hoperation⟩
  refine ⟨operation, ?_⟩
  obtain ⟨first, hfirst⟩ := List.length_eq_one_iff.1
    (Nat.le_antisymm h.single (List.length_pos_of_mem hmem))
  rw [hfirst] at hmem ⊢
  rw [List.mem_singleton.1 hmem]

theorem finished_compile (h : requested c s requests = .ok q) (hmade : q.Made c s requests made)
    (halter : requests.any Request.isAlteration = true) : Finished q c s requests .compile := by
  obtain ⟨_, _, _, hcollected⟩ := collected_of_requested h
  obtain ⟨operation, hoperation⟩ := hmade.exists_operation halter
  have htexts := hmade.map_leafText_alters (v := q.draft.view c.dialect c.qualify) rfl
  rw [hoperation, List.flatMap_singleton] at htexts
  refine ⟨isFlat_of_requested h, hcollected.shape, fun _ _ => Iff.rfl, _, .compile _ hoperation, ?_⟩
  have hopen : Text.IsOpen (Text.dropLineBreaks ("ALTER TABLE " ++ s.name ++ " ")) := by
    rw [Text.dropLineBreaks_append]
    exact Text.isOpen_append (c := ' ') rfl (.inl rfl)
  exact (congrArg Text.joinFragments htexts).trans (Text.joinFragments_pair hopen operation)

/-! ### Definitions -/

theorem joinFragments_partsOf {opening : String} (first last : Key) {entries : List Entry}
    (hopening : Text.IsOpen (Text.dropLineBreaks opening)) (hkeys : (entries.map Prod.fst).Nodup)
    (hlast : v.lastTableItem = (shown v.dialect entries).getLast?.map Prod.fst) :
    Text.joinFragments ((partsOf opening first last entries).map (Part.leafText v)) =
      Text.dropLineBreaks opening ++
        Text.dropLineBreaks (Text.joinWith ", " (texts v.dialect entries)) ++ ")" := by
  have hentries : (entries.map Entry.part).map (Part.leafText v) = entries.map (Entry.written v) := by
    rw [List.map_map]
    exact List.map_congr_left fun e _ => leafText_entry v e
  have hclosing : Text.dropLineBreaks ((Part.text last .plain ")").leafText v) = ")" := by
    change Text.dropLineBreaks ")" = ")"
    decide
  rw [partsOf, List.map_cons, List.map_append, hentries, List.map_singleton, Text.joinFragments,
    List.foldl_cons, List.foldl_append, List.foldl_map, List.foldl_cons, hclosing,
    Text.empty_appendFragment, Text.appendFragment_bracket]
  change append v (Text.dropLineBreaks opening) entries ++ ")" = _
  rw [append_eq hopening hkeys]
  intro e he
  rw [hlast, he]
  rfl

theorem Made.exists_entries (h : q.Made c s requests made) {marks : List Part}
    (hsub : marks ⊆ q.draft.parts) (hmark : ∀ p ∈ marks, IsMark p) :
    ∃ entries : List Entry,
      entries.map Entry.part = marks.filter (fun p => Finish.create.keeps p.tag) ∧
      texts c.dialect entries = marks.filterMap Part.constraint? := by
  have hentry : ∀ p ∈ marks.filter (fun p => Finish.create.keeps p.tag), ∃ e : Entry, e.part = p := by
    intro p hp
    obtain ⟨hp, hkeep⟩ := List.mem_filter.1 hp
    obtain ⟨request, ps, hps, hmakes⟩ := h.exists_makes (hsub hp)
    exact (hmakes.tag_cases hps).resolve_left (by simpa [Finish.keeps] using hkeep)
  have hconstraints : (marks.filter fun p => Finish.create.keeps p.tag).filterMap Part.constraint? =
      marks.filterMap Part.constraint? := by
    rw [List.filterMap_filter]
    refine List.filterMap_congr fun p hp => ?_
    split_ifs with hkeep
    · rfl
    · -- an alteration is no key
      have hsome := (hmark p hp).isSome_constraint?
      cases htag : p.tag <;> rw [htag] at hkeep hsome <;>
        first | exact absurd rfl hkeep | exact (Option.not_isSome_iff_eq_none.1 (by simp [hsome])).symm
  obtain ⟨entries, hentries, htexts⟩ := Table.exists_entries c.dialect hentry
    fun p hp => hmark p (List.mem_of_mem_filter hp)
  exact ⟨entries, hentries, htexts.trans hconstraints⟩

def columnEntries (columns : List Column) : List Entry :=
  columns.map fun e => (e.1, .column e.2)

theorem map_part_columnEntries (columns : List Column) :
    (columnEntries columns).map Entry.part = columns.map Column.part :=
  List.map_map

theorem texts_columnEntries (d : Dialect) (columns : List Column) :
    texts d (columnEntries columns) = (columns.map Prod.snd).map (columnText d) := by
  rw [texts, columnEntries, List.filterMap_map, List.map_map]
  exact congrFun List.filterMap_eq_map' columns

theorem Made.exists_partsOf (h : q.Made c s requests made) {first last : Key}
    {before behind : List Part} {columns : List Column}
    (hparts : q.definition.parts = .text first .createTable (c.dialect.createTable s.name) ::
      (before ++ columns.map Column.part ++ behind ++ [.text last .plain ")"]))
    (hsub : before ++ behind ⊆ q.draft.parts) (hmark : ∀ p ∈ before ++ behind, IsMark p)
    (hkeys : ((before ++ columns.map Column.part ++ behind).map Part.key).Nodup) :
    ∃ entries, (q.definition.parts.filter fun p => Finish.create.keeps p.tag) =
        partsOf (c.dialect.createTable s.name) first last entries ∧
      (entries.map Prod.fst).Nodup ∧
      texts c.dialect entries = before.filterMap Part.constraint? ++
        (columns.map Prod.snd).map (columnText c.dialect) ++ behind.filterMap Part.constraint? := by
  rw [List.forall_mem_append] at hmark
  obtain ⟨front, hfront, hfrontTexts⟩ :=
    h.exists_entries (fun p hp => hsub (List.mem_append_left _ hp)) hmark.1
  obtain ⟨back, hback, hbackTexts⟩ :=
    h.exists_entries (fun p hp => hsub (List.mem_append_right _ hp)) hmark.2
  have hcolumns : (columns.map Column.part).filter (fun p => Finish.create.keeps p.tag) =
      columns.map Column.part :=
    List.filter_eq_self.2 (List.forall_mem_map.2 fun _ _ => rfl)
  have hall : (front ++ columnEntries columns ++ back).map Entry.part =
      (before ++ columns.map Column.part ++ behind).filter fun p => Finish.create.keeps p.tag := by
    rw [List.map_append, List.map_append, List.filter_append, List.filter_append, hfront, hback,
      hcolumns, map_part_columnEntries]
  refine ⟨front ++ columnEntries columns ++ back, ?_, ?_, ?_⟩
  · rw [partsOf, hall, hparts, List.filter_cons_of_pos rfl, List.filter_append]
    rfl
  · have hsublist := (List.filter_sublist (p := fun p : Part => Finish.create.keeps p.tag)
      (l := before ++ columns.map Column.part ++ behind)).map Part.key
    have hfst : Part.key ∘ Entry.part = Prod.fst := funext Entry.key_part
    rw [← hall, List.map_map, hfst] at hsublist
    exact hkeys.sublist hsublist
  · rw [texts, List.filterMap_append, List.filterMap_append]
    change texts _ front ++ texts _ (columnEntries columns) ++ texts _ back = _
    rw [hfrontTexts, hbackTexts, texts_columnEntries]

theorem finished_create (h : requested c s requests = .ok q) (hmade : q.Made c s requests made) :
    Finished q c s requests .create := by
  obtain ⟨first, last, before, behind, columns, hparts, hshape, hkeys, hmark, hbeside, hcolumns,
    hconstraints⟩ := exists_definition h
  have hflat := flat_definition (isFlat_of_requested h)
  have hsub : before ++ behind ⊆ q.draft.parts := hbeside ▸ List.filter_subset_self _
  obtain ⟨entries, hpartsOf, hnodup, htexts⟩ := hmade.exists_partsOf hparts hsub hmark hkeys
  refine ⟨hflat, hshape, fun p hp => ?_, ?_⟩
  · have halters : p.tag.alters = true := by simpa [Finish.keeps] using hp
    have hfilter : q.definition.parts.filter (fun p => p.tag.alters) =
        q.draft.parts.filter fun p => p.tag.alters := by
      have hnone : (columns.map Column.part).filter (fun p => p.tag.alters) = [] :=
        List.filter_eq_nil_iff.2 (List.forall_mem_map.2 fun _ _ => Bool.false_ne_true)
      rw [← filter_alters_beside q.draft.parts, ← hbeside, hparts,
        List.filter_cons_of_neg Bool.false_ne_true]
      simp only [List.filter_append, hnone, List.append_nil]
      exact List.append_nil _
    have hmem (l : List Part) : p ∈ l.filter (fun p => p.tag.alters) ↔ p ∈ l :=
      List.mem_filter.trans (and_iff_left halters)
    change p ∈ q.definition.parts ↔ _
    rw [← hmem, hfilter, hmem]
  · let v := q.definition.toTree.view c.dialect c.qualify
    -- the commas of the definition do not see the alterations
    let t : Tree := { parts := q.definition.parts.filter fun p => Finish.create.keeps p.tag }
    have ht : t.IsFlat := fun p hp => hflat p (List.mem_of_mem_filter hp)
    have hitems : q.definition.toTree.flatten.filter (fun p => p.tag.isTableItem) =
        t.flatten.filter fun p => p.tag.isTableItem := by
      rw [hflat.flatten_eq, ht.flatten_eq, List.filter_filter]
      refine List.filter_congr fun p _ => ?_
      cases p.tag <;> rfl
    have hlast : v.lastTableItem = (shown v.dialect entries).getLast?.map Prod.fst :=
      (Tree.lastTableItem_congr hitems _ _).trans (lastTableItem_eq c.dialect hpartsOf c.qualify)
    have hsql := joinFragments_partsOf first last (c.dialect.isOpen_createTable s.name) hnodup hlast
    rw [← hpartsOf] at hsql
    refine ⟨_, .create _ _ (List.filterMap_append.symm.trans hconstraints), hsql.trans ?_⟩
    rw [dropLineBreaks_createText, ← hcolumns, ← htexts]
    rfl

/-! ### Statements -/

theorem finished_of_fault? (h : requested c s requests = .ok q) (hmade : q.Made c s requests made)
    (hfault : finish.fault? requests = none) : Finished q c s requests finish := by
  cases finish with
  | create => exact finished_create h hmade
  | compile =>
    refine finished_compile h hmade ?_
    by_contra halter
    rw [Finish.fault?, if_neg halter] at hfault
    cases hfault
  | rename newName => exact finished_rename h hmade newName
  | drop => exact finished_drop h hmade

namespace Finished

variable (h : Finished q c s requests finish) (hmade : q.Made c s requests made)

include h hmade

theorem isLong (hv : v.dialect = c.dialect) : ∀ p ∈ (finish.tree q).parts,
    finish.keeps p.tag = true ∨ p.leafText v = "" ∨ Text.IsLong (p.leafText v) := by
  intro p hp
  cases hkeep : finish.keeps p.tag with
  | true => exact .inl rfl
  | false =>
    obtain ⟨request, ps, hps, hmakes⟩ := hmade.exists_makes ((h.mem_iff p hkeep).1 hp)
    exact .inr (hmakes.isLong hv p hps)

theorem forall_parts_iff (hv : v.dialect = c.dialect) :
    (∀ p ∈ (finish.tree q).parts, finish.keeps p.tag = true ∨ p.leafText v = "") ↔
      ∀ request ∈ requests, request.Suits finish := by
  rw [← hmade.forall_parts_iff fun request ps hmakes => hmakes.suits_iff hv finish]
  refine forall_congr' fun p => ?_
  cases hkeep : finish.keeps p.tag with
  | true => simp
  | false => rw [h.mem_iff p hkeep]

theorem exists_stray (hv : v.dialect = c.dialect) (hrequest : request ∈ requests)
    (hsuits : ¬request.Suits finish) {fragment : String}
    (hfragment : fragment ∈ request.fragments c.dialect s) :
    ∃ p ∈ (finish.tree q).parts, Text.Contains (p.leafText v) fragment := by
  obtain ⟨ps, hps, hmakes⟩ := exists_mem_of_forall₂ hmade.makes hrequest
  obtain ⟨p, hp, hkeep, hcontains⟩ := hmakes.exists_stray hv hsuits hfragment
  have hdraft := hmade.perm.mem_iff.2 (List.mem_flatten_of_mem hps hp)
  exact ⟨p, (h.mem_iff p hkeep).2 hdraft, hcontains⟩

end Finished

/-- A finisher is refused for want of an alteration or of a name. Otherwise its statement is one of
its own kind exactly if every call suits it, and what any other call has collected stands in it. -/
theorem finishers_keep_to_their_kind (h : requested c s requests = .ok q) (finish : Finish) :
    match finish.fault? requests with
    | some fault => (finish.apply q).outcome = .error fault
    | none => ∃ compiled own, (finish.apply q).outcome = .ok compiled ∧
        finish.Owns c s requests own ∧
        (compiled.sql = Text.dropLineBreaks own ↔ ∀ request ∈ requests, request.Suits finish) ∧
        ∀ request ∈ requests, ¬request.Suits finish → ∀ fragment ∈ request.fragments c.dialect s,
          Text.Contains compiled.sql (Text.dropLineBreaks fragment) := by
  obtain ⟨made, hmade⟩ := made_of_requested h
  rw [Finish.apply_eq hmade]
  cases hfault : finish.fault? requests with
  | some fault => rfl
  | none =>
    have hfinished := finished_of_fault? h hmade hfault
    obtain ⟨compiled, hcompiled, hsql⟩ := hfinished.flat.compile_eq hfinished.shape c
    obtain ⟨own, howns, hown⟩ := hfinished.owns
    have hview : ((finish.tree q).view c.dialect c.qualify).dialect = c.dialect := rfl
    refine ⟨compiled, own, hcompiled, howns, ?_, fun request hrequest hsuits fragment hfragment => ?_⟩
    · rw [hsql, ← hown, Text.joinFragments_filter_iff (hfinished.isLong hmade hview)]
      exact hfinished.forall_parts_iff hmade hview
    · obtain ⟨p, hp, hcontains⟩ := hfinished.exists_stray hmade hview hrequest hsuits hfragment
      rw [hsql]
      refine (Text.contains_joinFragments (List.mem_map_of_mem hp)).trans ?_
      exact hcontains.dropLineBreaks

theorem finishers_keep_to_their_kind_age :
    let s : Schema := .ofTable "Customer"
      [{ name := "Id", columnType := .int }, { name := "Name", columnType := .string }]
    let requests : List Request :=
      [.collect (.key "Id" true), .column "Age" .add (some .int) (some false),
        .collect (.ignore "Name")]
    (∀ request ∈ requests, request.Suits .compile) ∧ ¬(∀ request ∈ requests, request.Suits .drop) ∧
      ∃ q compiled, requested {} s requests = .ok q ∧ q.compile.outcome = .ok compiled ∧
        compiled.sql = "ALTER TABLE Customer ADD COLUMN Age int NOT NULL" := by
  intro s requests
  have hsuits : ∀ request ∈ requests, request.Suits .compile := by decide
  obtain ⟨q, hq⟩ : ∃ q, requested {} s requests = .ok q := ⟨_, rfl⟩
  obtain ⟨compiled, own, hcompiled, howns, hsql, -⟩ := finishers_keep_to_their_kind hq .compile
  refine ⟨hsuits, by decide, q, compiled, hq, hcompiled, (hsql.2 hsuits).trans ?_⟩
  cases howns with
  | compile operation hoperation =>
    obtain rfl : operation = "ADD COLUMN Age int NOT NULL" := by
      have honly : requests.filterMap (Request.operation? .sqlite s) =
          ["ADD COLUMN Age int NOT NULL"] := by decide +kernel
      exact (List.cons.inj (hoperation.symm.trans honly)).1
    decide +kernel

/-- What was collected for an alteration or for a definition stands in front of the statement. -/
theorem other_kinds_collected :
    let s : Schema := .ofTable "Customer" [{ name := "Id", columnType := .int }]
    let age : Request := .column "Age" .add (some .int) none
    let key : Request := .collect (.key "Id" false)
    let sql (requests : List Request) (finish : Finish) :=
      (finished {} s requests finish).result?.map Compiled.sql
    sql [age] .drop = some "ALTER TABLE Customer ADD COLUMN Age int DROP TABLE Customer" ∧
      sql [key, age] .compile =
        some "PRIMARY KEY (Id) ALTER TABLE Customer ADD COLUMN Age int" := by
  decide +kernel

end Table

end SqlComposer
