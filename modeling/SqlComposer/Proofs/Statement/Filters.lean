import SqlComposer.Proofs.Statement.Restriction

/-!
# The filters of updates and deletions

Every filter of a statement is in its restriction, in the order of the calls, and assignments that
come between the filters are found where they are without them.
-/
namespace SqlComposer

/-- A draft that goes on behind the blocks of `front` with the predicates. -/
structure Restricted (d : Draft) (s : Outline) (lists : List Tag) (front : List Block)
    (table : String) (predicates : List Expr) : Prop where
  drawn : Drawn d s lists
  aliases : s.aliases = []
  apart : ∀ b ∈ front, b.tag ≠ .whereClause
  blocks : ∃ back, s.blocks = front ++ back ∧
    Restriction back (predicates.map fun p => ((Scope.ofTable table).atoms p).value)

namespace Restricted

variable {d : Draft} {s : Outline} {lists : List Tag} {front : List Block} {table : String}
  {predicates : List Expr} {c : Compiler}

theorem filter (h : Restricted d s lists front table predicates) (p : Expr) :
    Restricted (d.addRestriction (.ofTable table) p fun _ => false).value
      (s.restrict (fun _ => false) ((Scope.ofTable table).atoms p).value) lists front table
      (predicates ++ [p]) where
  drawn := h.drawn.restrict _ p
  aliases := by
    rw [Outline.restrict, Outline.nest]
    split_ifs <;> exact h.aliases
  apart := h.apart
  blocks := by
    obtain ⟨back, hblocks, hback⟩ := h.blocks
    obtain ⟨back', hblocks', hback'⟩ :=
      hback.restrict hblocks h.apart ((Scope.ofTable table).atoms p).value
    rw [List.map_append]
    exact ⟨back', hblocks', hback'⟩

theorem enter {l : Listing} (h : Restricted d s lists (front ++ [Block.listing l]) table predicates)
    (hl : l.tag ∈ lists) {e : Key → Entry} (he : ∀ k, (e k).key = k) :
    Restricted (d.spend 1 (d.addToLast (e d.nextKey).part l.tag)) (s.enter l.tag e) lists
      (front ++ [Block.listing (l.enter (e s.nextKey))]) table predicates where
  drawn := h.drawn.enter hl he
  aliases := h.aliases
  apart := by
    have hfront := h.apart
    rw [List.forall_mem_append, List.forall_mem_singleton] at hfront ⊢
    exact hfront
  blocks := by
    obtain ⟨back, hblocks, hback⟩ := h.blocks
    have hne : l.tag ≠ .whereClause :=
      h.apart (.listing l) (List.mem_append_right _ (List.mem_singleton_self _))
    -- only the restriction stands behind the list, so the list is the last one with its tag
    have hbehind : ∀ b ∈ back, b.tag ≠ l.tag := fun b hb => hback.tag_eq b hb ▸ hne.symm
    refine ⟨back, ?_, hback⟩
    rw [List.append_assoc, List.singleton_append] at hblocks ⊢
    exact Outline.blocks_enter _ hblocks hbehind e

theorem outcome_compile (h : Restricted d s lists front table predicates) (c : Compiler) :
    (c.compile d.toTree).outcome = .ok ⟨s.sql c, s.draft.toTree⟩ := by
  rw [h.drawn.draft_eq]
  exact s.outcome_compile c

theorem sql_of_nil (h : Restricted d s lists front table []) (c : Compiler) :
    s.sql c = s.textOf c front := by
  obtain ⟨back, hblocks, hback⟩ := h.blocks
  cases hback
  rw [Outline.sql, hblocks, List.append_nil, Outline.textOf]

theorem restricts (h : Restricted d s lists front table predicates) (hne : predicates ≠ [])
    {start : String} (hstart : ∀ text, Text.appendFragment (s.textOf c front) ("WHERE " ++ text) =
      start ++ "WHERE " ++ text) :
    Restricts c table predicates start ⟨s.sql c, s.draft.toTree⟩ := by
  obtain ⟨back, hblocks, hback⟩ := h.blocks
  obtain ⟨p, rest, rfl⟩ := List.exists_cons_of_ne_nil hne
  rw [List.map_cons] at hback
  generalize hatoms : ((Scope.ofTable table).atoms p).value = atoms at hback
  cases hback with
  | clause clause htag _ _ hadditions =>
    exact Outline.restricts h.aliases hblocks h.apart htag hatoms.symm hadditions c hstart

end Restricted

/-! ### Deletions -/

namespace Delete

variable {c : Compiler} {e : Entity}

/-- What keeps a restriction apart from the name of the table. -/
def gap (name : String) : String :=
  if name = "" then "" else " "

theorem restricted_ofEntity (c : Compiler) (e : Entity) :
    Restricted (ofEntity c e).draft (outline e) [] (outline e).blocks e.name [] where
  drawn := drawn_ofEntity c e
  aliases := rfl
  apart b hb := by
    obtain rfl | rfl := List.mem_pair.1 hb <;> nofun
  blocks := ⟨[], (List.append_nil _).symm, .none⟩

theorem restricted_run {q : Delete} {s : Outline} {front : List Block} {before : List Expr}
    (h : Restricted q.draft s [] front q.schema.name before) (predicates : List Expr) :
    ∃ t, Restricted (q.run predicates).value.draft t [] front q.schema.name
      (before ++ predicates) := by
  induction predicates generalizing q s before with
  | nil => exact ⟨s, (List.append_nil before).symm ▸ h⟩
  | cons p predicates ih =>
    have hlater := ih (q := (q.filter p).value) (h.filter p)
    rwa [List.append_assoc] at hlater

theorem textOf_outline (s : Outline) (c : Compiler) (hname : Text.OneLine e.name) :
    s.textOf c (outline e).blocks = "DELETE FROM " ++ e.name := by
  have hopen : Text.IsOpen "DELETE " :=
    Text.isOpen_of_getLast? (c := ' ') (by decide) (.inl (by decide))
  have hwrite : Frame.write ⟨"DELETE ", " "⟩ [] = "DELETE " := by rw [Frame.write, if_pos rfl]
  have hlist : Listing.written (s.view c) { key := 1, tag := .delete } = "DELETE " := by
    change Text.dropLineBreaks (Frame.write ⟨"DELETE ", " "⟩ []) = _
    rw [hwrite]
    decide
  have hsource {clause : Clause} (htag : clause.tag = .fromClause)
      (hentity : clause.entity = some e.name) (halias : clause.tableAlias = none)
      (hadditions : clause.additions = []) :
      clause.written (s.view c) = "FROM " ++ e.name := by
    rw [Clause.written, htag, hentity, halias, hadditions, clauseText, sourceText, List.map_nil,
      Text.joinWith, String.append_empty, (Text.OneLine.append (by decide) hname).dropLineBreaks_eq]
  rw [Outline.textOf, outline, List.map_cons, List.map_singleton, Compiler.joinPieces,
    List.foldl_cons, List.foldl_cons, List.foldl_nil, Text.empty_appendFragment]
  simp only [Block.piece, Block.written]
  have hdropped : Text.dropLineBreaks "DELETE " = "DELETE " := by decide
  rw [hlist, hsource rfl rfl rfl rfl, (Text.OneLine.append (by decide) hname).dropLineBreaks_eq,
    hdropped, hopen.appendFragment_eq, ← String.append_assoc]
  rfl

theorem appendFragment_gap {name : String}
    (hend : ∀ last ∈ name.toList.getLast?, Text.isBlank last = false ∧ last ≠ '(')
    (text : String) :
    Text.appendFragment ("DELETE FROM " ++ name) ("WHERE " ++ text) =
      "DELETE FROM " ++ name ++ gap name ++ "WHERE " ++ text := by
  have hgap : Text.gapBehind ("DELETE FROM " ++ name) = gap name := by
    rw [Text.gapBehind_append (by decide)]
    cases hlast : name.toList.getLast? with
    | none =>
      obtain rfl : name = "" := String.toList_inj.1 (List.getLast?_eq_none_iff.1 hlast)
      rfl
    | some last =>
      obtain ⟨hblank, hbracket⟩ := hend last hlast
      have hne : name ≠ "" := by
        rintro rfl
        cases hlast
      rw [Text.gapBehind_of_getLast? hlast, gap, if_neg hne, hblank, beq_eq_false_iff_ne.2 hbracket]
      rfl
  rw [Text.appendFragment_word (c := 'W') (by simp [String.toList_append]) (by decide), hgap,
    ← String.append_assoc]

theorem exists_compiled (c : Compiler) (hname : Text.OneLine e.name)
    (hend : ∀ last ∈ e.name.toList.getLast?, Text.isBlank last = false ∧ last ≠ '(')
    (predicates : List Expr) :
    ∃ compiled, ((ofEntity c e).run predicates).value.compile.outcome = .ok compiled ∧
      (predicates = [] → compiled.sql = "DELETE FROM " ++ e.name) ∧
      (predicates ≠ [] →
        Restricts c e.name predicates ("DELETE FROM " ++ e.name ++ gap e.name) compiled) := by
  obtain ⟨s, h⟩ := restricted_run (restricted_ofEntity c e) predicates
  refine ⟨⟨s.sql c, s.draft.toTree⟩, ?_, ?_, fun hne => h.restricts hne fun text => ?_⟩
  · rw [compile, (run_same (ofEntity c e) predicates).1]
    exact h.outcome_compile c
  · rintro rfl
    exact (h.sql_of_nil c).trans (textOf_outline s c hname)
  · rw [textOf_outline s c hname, appendFragment_gap hend]

theorem append_where_ne (s t u : String) : s ++ t ++ "WHERE " ++ u ≠ s := by
  intro h
  have hlength := congrArg (fun s => s.toList.length) h
  simp [String.toList_append] at hlength

end Delete

/-! ### Updates -/

namespace Update

variable {c : Compiler} {e : Entity} {q : Update} {s : Outline} {l : Listing}
  {assigned : List (String × Value)} {predicates : List Expr}

def Call.assignment? : Call → Option (String × Value)
  | .set member v => some (member, v)
  | .filter _ => none

def Call.predicate? : Call → Option Expr
  | .set .. => none
  | .filter predicate => some predicate

def assignmentText (d : Dialect) (s : Schema) (a : String × Value) : String :=
  let text := d.written a.2 ((s.field? a.1).map FieldDef.columnType)
  if a.1 = "" then text else a.1 ++ "=" ++ text

theorem written_entry (v : View) (q : Update) (member : String) (x : Value) (key : Key) :
    (q.entry member x key).written v = assignmentText v.dialect q.schema (member, x) := by
  rw [assignmentText]
  by_cases hmember : member = "" <;> simp [entry, Entry.written, Parameter.render, Parameter.bare,
    Parameter.value?, hmember]

def assignmentsText (d : Dialect) (e : Entity) (assigned : List (String × Value)) : String :=
  Text.dropLineBreaks (Frame.write ⟨"SET ", " "⟩
    ((assigned.map (assignmentText d (Schema.ofEntity e))).filter fun s => s ≠ ""))

theorem getLast?_assignmentsText (d : Dialect) (e : Entity) (assigned : List (String × Value)) :
    (assignmentsText d e assigned).toList.getLast? = some ' ' := by
  have hspace (items : List String) : ∃ text, Frame.write ⟨"SET ", " "⟩ items = text ++ " " := by
    cases items with
    | nil => exact ⟨"SET", by rw [Frame.write, if_pos rfl]; rfl⟩
    | cons => exact ⟨_, rfl⟩
  obtain ⟨text, htext⟩ := hspace
    ((assigned.map (assignmentText d (Schema.ofEntity e))).filter fun s => s ≠ "")
  rw [assignmentsText, htext, Text.dropLineBreaks_append, String.toList_append,
    List.getLast?_append]
  rfl

def front (e : Entity) (l : Listing) : List Block :=
  [.text 1 .update ("UPDATE " ++ e.name)] ++ [.listing l]

/-- An update with the assignments in its list and the predicates in its restriction. -/
structure Assigns (c : Compiler) (e : Entity) (q : Update) (s : Outline) (l : Listing)
    (assigned : List (String × Value)) (predicates : List Expr) : Prop where
  compiler : q.compiler = c
  schema : q.schema = Schema.ofEntity e
  restricted : Restricted q.draft s [.assignments] (front e l) e.name predicates
  tag : l.tag = .assignments
  notClosed : l.isClosed = false
  entries : ∀ v, l.entries.map (Entry.written v) =
    assigned.map (assignmentText v.dialect (Schema.ofEntity e))

namespace Assigns

theorem ofEntity (c : Compiler) (e : Entity) :
    Assigns c e (ofEntity c e) (outline e) { key := 2, tag := .assignments } [] [] where
  compiler := rfl
  schema := rfl
  restricted := {
    drawn := drawn_ofEntity c e
    aliases := rfl
    apart := fun b hb => by
      obtain rfl | rfl := List.mem_pair.1 hb <;> nofun
    blocks := ⟨[], rfl, .none⟩ }
  tag := rfl
  notClosed := rfl
  entries _ := rfl

theorem set (h : Assigns c e q s l assigned predicates) (member : String) (v : Value) :
    Assigns c e (q.set member v) (s.enter .assignments (q.entry member v))
      (l.enter (q.entry member v s.nextKey)) (assigned ++ [(member, v)]) predicates where
  compiler := h.compiler
  schema := h.schema
  restricted := by
    have hentered := h.restricted.enter (e := q.entry member v)
      (by rw [h.tag]; exact List.mem_singleton_self _) fun _ => rfl
    rw [h.tag] at hentered
    exact hentered
  tag := h.tag
  notClosed := h.notClosed
  entries view := by
    rw [Listing.entries_enter h.notClosed, List.map_append, List.map_append, h.entries,
      List.map_singleton, List.map_singleton, written_entry, h.schema]

theorem filter (h : Assigns c e q s l assigned predicates) (p : Expr) :
    Assigns c e (q.filter p).value
      (s.restrict (fun _ => false) ((Scope.ofTable e.name).atoms p).value) l assigned
      (predicates ++ [p]) where
  compiler := h.compiler
  schema := h.schema
  restricted := by
    have hname : q.schema.name = e.name := congrArg Schema.name h.schema
    change Restricted (q.draft.addRestriction (.ofTable q.schema.name) p fun _ => false).value
      _ _ _ _ _
    rw [hname]
    exact h.restricted.filter p
  tag := h.tag
  notClosed := h.notClosed
  entries := h.entries

theorem run (h : Assigns c e q s l assigned predicates) (calls : List Call) :
    ∃ s' l', Assigns c e (q.run calls).value s' l' (assigned ++ calls.filterMap Call.assignment?)
      (predicates ++ calls.filterMap Call.predicate?) := by
  induction calls generalizing q s l assigned predicates with
  | nil =>
    rw [← List.append_nil assigned, ← List.append_nil predicates] at h
    exact ⟨s, l, h⟩
  | cons call calls ih =>
    cases call with
    | set member v =>
      have hlater := ih (h.set member v)
      rwa [List.append_assoc] at hlater
    | filter p =>
      have hlater := ih (h.filter p)
      rwa [List.append_assoc] at hlater

theorem outcome_compile (h : Assigns c e q s l assigned predicates) (hne : assigned ≠ []) :
    q.compile.outcome = .ok ⟨s.sql c, s.draft.toTree⟩ := by
  have hcount : q.assignmentCount ≠ 0 := by
    intro hzero
    rw [assignmentCount, List.length_eq_zero_iff, List.flatMap_eq_nil_iff,
      h.restricted.drawn.draft_eq] at hzero
    obtain ⟨back, hblocks, -⟩ := h.restricted.blocks
    have hmem : (Block.listing l).part ∈ s.draft.toTree.partsOf .assignments := by
      refine List.mem_filter.2 ⟨List.mem_map_of_mem ?_, beq_iff_eq.2 h.tag⟩
      rw [hblocks]
      simp [front]
    have hentries : l.entries = [] := List.map_eq_nil_iff.1 (hzero _ hmem)
    have htexts := h.entries (s.view c)
    rw [hentries] at htexts
    exact hne (List.map_eq_nil_iff.1 htexts.symm)
  rw [compile, if_neg hcount, h.compiler]
  exact h.restricted.outcome_compile c

theorem textOf_front (h : Assigns c e q s l assigned predicates) :
    s.textOf c (front e l) = Text.appendFragment (Text.dropLineBreaks ("UPDATE " ++ e.name))
      (assignmentsText c.dialect e assigned) := by
  have hframe : l.frame = ⟨"SET ", " "⟩ := by simp [Listing.frame, h.tag, Tag.frame?]
  have hlist : l.written (s.view c) = assignmentsText c.dialect e assigned := by
    rw [Listing.written, hframe, h.entries]
    rfl
  have hdropped : Text.dropLineBreaks (assignmentsText c.dialect e assigned) =
      assignmentsText c.dialect e assigned := Text.dropLineBreaks_dropLineBreaks _
  rw [Outline.textOf, front, List.singleton_append, List.map_cons, List.map_singleton,
    Compiler.joinPieces, List.foldl_cons, List.foldl_cons, List.foldl_nil,
    Text.empty_appendFragment]
  simp only [Block.piece, Block.written]
  rw [hlist, hdropped]

theorem isOpen_textOf_front (h : Assigns c e q s l assigned predicates) :
    Text.IsOpen (s.textOf c (front e l)) := by
  rw [h.textOf_front]
  exact Text.isOpen_appendFragment (getLast?_assignmentsText c.dialect e assigned)
    (.inl (by decide))

end Assigns

theorem exists_compiled (c : Compiler) (e : Entity) (calls : List Call)
    (hsets : calls.filterMap Call.assignment? ≠ [])
    (hfilters : calls.filterMap Call.predicate? ≠ []) :
    ∃ base compiled,
      ((ofEntity c e).run
        (calls.filter fun call => call.assignment?.isSome)).value.compile.outcome = .ok base ∧
      ((ofEntity c e).run calls).value.compile.outcome = .ok compiled ∧
      Restricts c e.name (calls.filterMap Call.predicate?) base.sql compiled := by
  obtain ⟨s, l, h⟩ := (Assigns.ofEntity c e).run calls
  obtain ⟨s', l', h'⟩ := (Assigns.ofEntity c e).run
    (calls.filter fun call => call.assignment?.isSome)
  have hassigned : (calls.filter fun call => call.assignment?.isSome).filterMap Call.assignment? =
      calls.filterMap Call.assignment? := by
    rw [List.filterMap_filter]
    exact congrArg (calls.filterMap ·) (funext fun call => by cases call <;> rfl)
  have hpredicates : (calls.filter fun call => call.assignment?.isSome).filterMap
      Call.predicate? = [] := by
    rw [List.filterMap_filter, List.filterMap_eq_nil_iff]
    exact fun call _ => by cases call <;> rfl
  rw [List.nil_append] at h h'
  rw [hassigned, hpredicates] at h'
  -- the keys of the two lists differ, and their texts do not see them
  have hbase : s'.sql c = s.textOf c (front e l) := by
    rw [h'.restricted.sql_of_nil c, h'.textOf_front, h.textOf_front]
  refine ⟨_, _, h'.outcome_compile hsets, h.outcome_compile hsets,
    h.restricted.restricts hfilters fun text => ?_⟩
  rw [h.isOpen_textOf_front.appendFragment_eq, hbase, String.append_assoc]

end Update

/-- A deletion or an update has all of its filters in one restriction at its end. A deletion has no
restriction iff it has no filter, and an update says in front of the restriction what it says
without filters. -/
theorem Statement.filters_are_kept (c : Compiler) (e : Entity) :
    (∀ target first predicates, Text.OneLine e.name →
      (∀ last ∈ e.name.toList.getLast?, Text.isBlank last = false ∧ last ≠ '(') →
      Delete.given e target = some first →
      ∃ compiled, (compile c (.delete e target predicates)).outcome = .ok compiled ∧
        (compiled.sql = "DELETE FROM " ++ e.name ↔ first ++ predicates = []) ∧
        (first ++ predicates ≠ [] → Restricts c e.name (first ++ predicates)
          ("DELETE FROM " ++ e.name ++ Delete.gap e.name) compiled)) ∧
    ∀ target first calls, Update.given e target = some first →
      (first ++ calls).filterMap Update.Call.assignment? ≠ [] →
      (first ++ calls).filterMap Update.Call.predicate? ≠ [] →
      ∃ base compiled,
        (compile c (.update e none
          ((first ++ calls).filter fun call => call.assignment?.isSome))).outcome = .ok base ∧
        (compile c (.update e target calls)).outcome = .ok compiled ∧
        Restricts c e.name ((first ++ calls).filterMap Update.Call.predicate?) base.sql
          compiled := by
  refine ⟨fun target first predicates hname hend hfirst => ?_,
    fun target first calls hfirst hsets hfilters => ?_⟩
  · obtain ⟨compiled, hcompiled, hnil, hne⟩ :=
      Delete.exists_compiled c hname hend (first ++ predicates)
    rw [Delete.outcome_compile c predicates hfirst]
    refine ⟨compiled, hcompiled, ⟨fun hsql => ?_, hnil⟩, hne⟩
    by_contra hpredicates
    rw [(hne hpredicates).sql] at hsql
    exact Delete.append_where_ne _ _ _ hsql
  · obtain ⟨base, compiled, hbase, hcompiled, hrestricts⟩ :=
      Update.exists_compiled c e (first ++ calls) hsets hfilters
    have hnone : Update.given e none = some [] := rfl
    exact ⟨base, compiled, (Update.outcome_compile c _ hnone).trans hbase,
      (Update.outcome_compile c calls hfirst).trans hcompiled, hrestricts⟩

theorem Statement.filters_are_kept_employee :
    let e : Entity := ⟨"Employee", [⟨"Id", .int, false⟩, ⟨"Grade", .int, true⟩]⟩
    let low : Expr := .binary .less (.col "Grade") (.constant (.int 3))
    let unnamed : Expr := .binary .or (.equals (.col "Name") (.constant .null))
      (.equals (.col "Name") (.constant (.string "a\nb")))
    (∃ compiled, (compile {} (.delete e (some ⟨[.int 7, .int 2], none⟩) [low])).outcome =
        .ok compiled ∧
      compiled.sql = "DELETE FROM Employee WHERE (Employee.Id = 7) AND (Employee.Grade < 3)") ∧
    ∃ base compiled,
      (compile { qualify := false } (.update e none
        [.set "Grade" (.int 4), .set "Name" (.string "x")])).outcome = .ok base ∧
      (compile { qualify := false } (.update e none
        [.filter low, .set "Grade" (.int 4), .filter unnamed, .set "Name" (.string "x")])).outcome =
          .ok compiled ∧
      compiled.sql = base.sql ++ "WHERE (Grade < 3) AND ((Name IS NULL) OR (Name = 'ab'))" := by
  intro e low unnamed
  have hkeys : Key.members (Schema.ofEntity e) none = ["Id"] := by decide +kernel
  have hfield : (Schema.ofEntity e).field? "Id" = some (Schema.ofEntity e).fields[0] := rfl
  have hgiven : Delete.given e (some ⟨[.int 7, .int 2], none⟩) =
      some [.equals (.col "Id") (.constant (.int 7))] := by
    rw [Delete.given, Key.predicate, hkeys, List.mapM_cons, Key.comparison, hfield]
    rfl
  have hlast : e.name.toList.getLast? = some 'e' := by decide
  have hend : ∀ last ∈ e.name.toList.getLast?, Text.isBlank last = false ∧ last ≠ '(' := by
    intro last h
    obtain rfl := Option.some.inj (hlast.symm.trans h)
    decide
  obtain ⟨compiled, hcompiled, -, hrestricts⟩ := (filters_are_kept {} e).1 _ _ [low]
    (by decide) hend hgiven
  obtain ⟨base, compiled', hbase, hcompiled', hrestricts'⟩ :=
    (filters_are_kept { qualify := false } e).2 none []
      [.filter low, .set "Grade" (.int 4), .filter unnamed, .set "Name" (.string "x")] rfl
      (List.cons_ne_nil _ _) (List.cons_ne_nil _ _)
  refine ⟨⟨compiled, hcompiled, ?_⟩, base, compiled', hbase, hcompiled', ?_⟩
  · rw [(hrestricts (List.cons_ne_nil _ _)).sql]
    decide +kernel
  · rw [hrestricts'.sql, String.append_assoc, String.append_right_inj]
    decide +kernel

end SqlComposer
