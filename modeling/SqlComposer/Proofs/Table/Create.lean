import SqlComposer.Proofs.Table.Written
import SqlComposer.TableFile

/-!
# The text of a table definition

A table of a table file is defined by the calls that its columns and foreign keys stand for.
-/
namespace SqlComposer

namespace Dialect

theorem oneLine_typeKeyword (d : Dialect) (t : ColumnType) : Text.OneLine (d.typeKeyword t) := by
  cases d <;> cases t <;> decide

theorem oneLine_autoIncrementType (d : Dialect) (t : ColumnType) :
    Text.OneLine (d.autoIncrementType t) := by
  cases d with
  | sqlite => exact (by decide : Text.OneLine "integer")
  | sqlServer => exact oneLine_typeKeyword .sqlServer t

theorem oneLine_createTable (d : Dialect) {name : String} (h : Text.OneLine name) :
    Text.OneLine (d.createTable name) := by
  cases d <;> exact (Text.OneLine.append (by decide) h).append (by decide)

end Dialect

namespace Table

theorem oneLine_columnText (d : Dialect) {c : ColumnDecl} (h : Text.OneLine c.name) :
    Text.OneLine (columnText d c) := by
  refine ((h.append (by decide)).append ?_ |>.append ?_).append ?_
  · split_ifs
    · exact d.oneLine_autoIncrementType _
    · exact d.oneLine_typeKeyword _
  · split_ifs <;> decide
  · split_ifs
    · cases d <;> decide
    · decide

theorem Call.oneLine_constraint {call : Call} (h : ∀ name ∈ call.names, Text.OneLine name)
    {text : String} (htext : call.constraint? = some text) : Text.OneLine text := by
  cases call with
  | ignore => cases htext
  | key member autoIncrement =>
    cases autoIncrement with
    | true => cases htext
    | false =>
      cases htext
      exact (Text.OneLine.append (by decide) (h _ (.head _))).append (by decide)
  | compositeKey members =>
    cases htext
    exact (Text.OneLine.append (by decide) (.joinWith (by decide) h)).append (by decide)
  | foreignKey member table reference =>
    cases htext
    have hmember := (Text.OneLine.append (by decide : Text.OneLine "FOREIGN KEY(") (h _ (.head _)))
    have htable := (hmember.append (by decide : Text.OneLine ") REFERENCES ")).append
      (h _ (.tail _ (.head _)))
    exact ((htable.append (by decide : Text.OneLine "(")).append
      (h _ (.tail _ (.tail _ (.head _))))).append (by decide)

variable {c : Compiler} {s : Schema} {calls : List Call}

theorem oneLine_items (d : Dialect) (hfields : ∀ f ∈ s.fields, Text.OneLine f.memberName)
    (hcalls : ∀ call ∈ calls, ∀ name ∈ call.names, Text.OneLine name) :
    ∀ item ∈ items d s calls, Text.OneLine item := by
  intro item hitem
  rw [items, List.mem_append] at hitem
  rcases hitem with hcolumn | hconstraint
  · obtain ⟨f, hf, rfl⟩ := List.mem_map.1 hcolumn
    exact oneLine_columnText d (hfields f (List.mem_of_mem_filter hf))
  · obtain ⟨call, hcall, htext⟩ := List.mem_filterMap.1 hconstraint
    exact call.oneLine_constraint (hcalls call hcall) htext

/-! ### Calls that declare no column -/

theorem run_eq_requested (c : Compiler) (s : Schema) (calls : List Call) :
    run c s calls = requested c s (calls.map .collect) := by
  rw [run, requested, List.foldlM_map]
  rfl

theorem isAccepted_collect (s : Schema) (hcalls : .compositeKey [] ∉ calls) :
    ∀ request ∈ calls.map Request.collect, request.IsAccepted s := by
  rw [List.forall_mem_map]
  exact fun call hcall heq => hcalls (heq ▸ hcall)

theorem collect_mem_iff {call : Call} : .collect call ∈ calls.map Request.collect ↔ call ∈ calls :=
  List.mem_map_of_injective fun _ _ => Request.collect.inj

theorem declarations_collect (s : Schema) (calls : List Call) :
    declarations s (calls.map .collect) = [] := by
  rw [declarations, List.filterMap_eq_nil_iff, List.forall_mem_map]
  exact fun _ _ => rfl

theorem keysFollow_collect (s : Schema) (calls : List Call) :
    KeysFollow s (calls.map .collect) := by
  have hdeclarations := declarations_collect s calls
  have hextra : extraColumns s (calls.map .collect) = [] := by rw [extraColumns, hdeclarations]; rfl
  rw [KeysFollow, if_pos hextra]
  exact .inr (.inl hdeclarations)

theorem items_eq (d : Dialect) (s : Schema) (calls : List Call) :
    items d s calls = (definedColumns s (calls.map .collect)).map (columnText d) ++
      keyTexts (calls.map .collect) := by
  have hnone : memberColumns s (calls.map .collect) = [] ∧ extraColumns s (calls.map .collect) = [] := by
    rw [memberColumns, extraColumns, declarations_collect]
    exact ⟨rfl, rfl⟩
  have hkeys : keyTexts (calls.map .collect) = calls.filterMap Call.constraint? := List.filterMap_map
  rw [definedColumns, settled, hnone.1, hnone.2, settle_nil, hkeys, items, keptMembers]
  simp [collect_mem_iff, Function.comp_def]

theorem run_eq_error (c : Compiler) (s : Schema) (hcalls : .compositeKey [] ∈ calls) :
    run c s calls =
      .error (.missingArgument "members" "a composite key needs at least one member") := by
  obtain ⟨before, behind, rfl, hbefore⟩ := List.eq_append_cons_of_mem hcalls
  obtain ⟨q, hq⟩ := exists_requested c (isAccepted_collect s hbefore)
  rw [← run_eq_requested, run] at hq
  rw [run, List.foldlM_append, hq]
  rfl

theorem exists_create (c : Compiler) (hcalls : .compositeKey [] ∉ calls)
    (hname : Text.OneLine s.name) (hfields : ∀ f ∈ s.fields, Text.OneLine f.memberName)
    (hnames : ∀ call ∈ calls, ∀ name ∈ call.names, Text.OneLine name) :
    ∃ q, run c s calls = .ok q ∧ q.create.outcome.map Compiled.sql =
      .ok (createText c.dialect s.name (items c.dialect s calls)) := by
  obtain ⟨q, compiled, before, behind, hq, hcompiled, hlists, hkeys, hbefore, -⟩ :=
    exists_lists c (isAccepted_collect s hcalls)
  have hitems : before ++ (definedColumns s (calls.map .collect)).map (columnText c.dialect) ++
      behind = items c.dialect s calls := by
    rw [items_eq, ← hkeys]
    rcases hbefore.2 (keysFollow_collect s calls) with hnil | hnil <;> simp [hnil]
  have htext : Text.OneLine (createText c.dialect s.name (items c.dialect s calls)) := by
    have hcomma : Text.OneLine ", " := by decide
    exact ((c.dialect.oneLine_createTable hname).append
      (hcomma.joinWith (oneLine_items c.dialect hfields hnames))).append (by decide)
  refine ⟨q, (run_eq_requested c s calls).trans hq, ?_⟩
  rw [hcompiled, ← htext.dropLineBreaks_eq, ← hitems]
  exact congrArg Except.ok hlists.sql

end Table

namespace TableEntry

def keys (t : TableEntry) : List ColumnEntry :=
  t.columns.filter ColumnEntry.key

def callsOf : List ColumnEntry → List Table.Call
  | [] => []
  | [k] => [.key k.name k.autoIncrement]
  | keys => [.compositeKey (keys.map ColumnEntry.name)]

def calls (t : TableEntry) : List Table.Call :=
  callsOf t.keys ++ t.foreignKeys.map fun k => .foreignKey k.column k.table k.reference

def names (t : TableEntry) : List String :=
  t.name :: t.columns.map ColumnEntry.name ++
    t.foreignKeys.flatMap fun k => [k.column, k.table, k.reference]

/-- A column numbers the rows if it has the name of the only key and that key does so. -/
def numbers (keys : List ColumnEntry) (name : String) : Bool :=
  keys.map (fun k => (k.name, k.autoIncrement)) = [(name, true)]

def primaryKey? : List ColumnEntry → Option String
  | [] => none
  | [k] => if k.autoIncrement then none else some ("PRIMARY KEY (" ++ k.name ++ ")")
  | keys => some ("PRIMARY KEY (" ++ Text.joinWith ", " (keys.map ColumnEntry.name) ++ ")")

def items (d : Dialect) (t : TableEntry) : List String :=
  t.columns.map (fun k => Table.columnText d
      { name := k.name
        columnType := k.columnType
        nullable := k.nullable
        autoIncrement := numbers t.keys k.name }) ++
    (primaryKey? t.keys).toList ++
    t.foreignKeys.map fun k =>
      "FOREIGN KEY(" ++ k.column ++ ") REFERENCES " ++ k.table ++ "(" ++ k.reference ++ ")"

variable {t : TableEntry} {c : Compiler}

theorem withKeys_eq (t : TableEntry) (q : Table) :
    t.withKeys q = (callsOf t.keys).foldlM Table.Call.apply q := by
  rw [withKeys, keys]
  match t.columns.filter ColumnEntry.key with
  | [] => rfl
  | [k] => rfl
  | k :: k' :: rest => exact (bind_pure _).symm

theorem foldlM_foreignKeys (ks : List ForeignKeyEntry) (q : Table) :
    (ks.map fun k => Table.Call.foreignKey k.column k.table k.reference).foldlM
        Table.Call.apply q =
      .ok (ks.foldl (fun q k => q.foreignKey k.column k.table k.reference) q) := by
  induction ks generalizing q with
  | nil => rfl
  | cons k ks ih => exact ih _

theorem create_eq (t : TableEntry) (c : Compiler) :
    t.create c = (do (← Table.run c t.schema t.calls).create.outcome) := by
  rw [create, Table.run, calls, List.foldlM_append, withKeys_eq, bind_assoc]
  simp only [foldlM_foreignKeys]
  rfl

theorem mem_calls {call : Table.Call} (h : call ∈ t.calls) :
    (∃ k, t.keys = [k] ∧ call = .key k.name k.autoIncrement) ∨
      (t.keys ≠ [] ∧ call = .compositeKey (t.keys.map ColumnEntry.name)) ∨
      ∃ k ∈ t.foreignKeys, call = .foreignKey k.column k.table k.reference := by
  rw [calls, List.mem_append] at h
  rcases h with h | h
  · match hkeys : t.keys with
    | [] =>
      rw [hkeys] at h
      cases h
    | [k] =>
      rw [hkeys] at h
      exact .inl ⟨k, rfl, List.mem_singleton.1 h⟩
    | k :: k' :: rest =>
      rw [hkeys] at h
      exact .inr (.inl ⟨List.cons_ne_nil _ _, List.mem_singleton.1 h⟩)
  · obtain ⟨k, hk, rfl⟩ := List.mem_map.1 h
    exact .inr (.inr ⟨k, hk, rfl⟩)

theorem compositeKey_nil_notMem (t : TableEntry) : .compositeKey [] ∉ t.calls := by
  intro h
  rcases mem_calls h with ⟨_, -, hcall⟩ | ⟨hne, hcall⟩ | ⟨_, -, hcall⟩
  · cases hcall
  · exact hne (List.map_eq_nil_iff.1 (Table.Call.compositeKey.inj hcall).symm)
  · cases hcall

theorem ignore_notMem (t : TableEntry) (member : String) : .ignore member ∉ t.calls := by
  intro h
  rcases mem_calls h with ⟨_, -, hcall⟩ | ⟨-, hcall⟩ | ⟨_, -, hcall⟩ <;> cases hcall

theorem key_mem_iff (t : TableEntry) (member : String) :
    .key member true ∈ t.calls ↔ numbers t.keys member = true := by
  rw [numbers, decide_eq_true_iff]
  constructor
  · intro h
    rcases mem_calls h with ⟨k, hkeys, hcall⟩ | ⟨-, hcall⟩ | ⟨_, -, hcall⟩
    · obtain ⟨rfl, hnumbers⟩ := Table.Call.key.inj hcall
      rw [hkeys, List.map_singleton, ← hnumbers]
    · cases hcall
    · cases hcall
  · intro h
    obtain ⟨k, hkeys, hk⟩ := List.map_eq_singleton_iff.1 h
    obtain ⟨rfl, hnumbers⟩ := Prod.mk.inj hk
    refine List.mem_append_left _ ?_
    rw [hkeys, callsOf, hnumbers]
    exact List.mem_singleton_self _

theorem filterMap_constraint?_calls (t : TableEntry) :
    t.calls.filterMap Table.Call.constraint? = (primaryKey? t.keys).toList ++
      t.foreignKeys.map fun k =>
        "FOREIGN KEY(" ++ k.column ++ ") REFERENCES " ++ k.table ++ "(" ++ k.reference ++ ")" := by
  have hkeys (keys : List ColumnEntry) :
      (callsOf keys).filterMap Table.Call.constraint? = (primaryKey? keys).toList := by
    match keys with
    | [] => rfl
    | [k] =>
      rw [callsOf, primaryKey?]
      cases k.autoIncrement <;> rfl
    | k :: k' :: rest => rfl
  rw [calls, List.filterMap_append, hkeys, List.filterMap_map]
  exact congrArg _ (congrFun List.filterMap_eq_map' t.foreignKeys)

theorem map_columnOf_ofMembers (numbered : String → Bool) (entity : String) (n : Nat)
    (members : List Member) :
    (FieldDef.ofMembers entity n members).map (Table.columnOf numbered) =
      members.map fun m =>
        { name := m.name
          columnType := m.columnType
          nullable := m.nullable
          autoIncrement := numbered m.name } := by
  induction members generalizing n with
  | nil => rfl
  | cons m members ih =>
    rw [FieldDef.ofMembers, List.map_cons, List.map_cons, ih]
    rfl

theorem items_calls (t : TableEntry) (d : Dialect) :
    Table.items d t.schema t.calls = t.items d := by
  have hnumbered : (fun m => decide (.key m true ∈ t.calls)) = numbers t.keys := by
    funext m
    rw [Bool.eq_iff_iff, decide_eq_true_iff, t.key_mem_iff]
  have hfields : (t.schema.fields.filter fun f => .ignore f.memberName ∉ t.calls) =
      t.schema.fields :=
    List.filter_eq_self.2 fun f _ => decide_eq_true (t.ignore_notMem f.memberName)
  rw [Table.items, hfields, hnumbered, t.filterMap_constraint?_calls, items, List.append_assoc]
  have hcolumns := congrArg (List.map (Table.columnText d))
    (map_columnOf_ofMembers (numbers t.keys) t.name 0 (t.columns.map ColumnEntry.member))
  rw [List.map_map, List.map_map, List.map_map] at hcolumns
  exact congrArg (· ++ _) hcolumns

theorem oneLine_names (h : ∀ name ∈ t.names, Text.OneLine name) :
    Text.OneLine t.schema.name ∧ (∀ f ∈ t.schema.fields, Text.OneLine f.memberName) ∧
      ∀ call ∈ t.calls, ∀ name ∈ call.names, Text.OneLine name := by
  have hcolumns : ∀ k ∈ t.columns, Text.OneLine k.name := fun k hk =>
    h _ (List.mem_append_left _ (List.mem_cons_of_mem _ (List.mem_map_of_mem hk)))
  have hkeys : ∀ k ∈ t.keys, Text.OneLine k.name := fun k hk =>
    hcolumns k (List.mem_of_mem_filter hk)
  refine ⟨h _ List.mem_cons_self, fun f hf => ?_, fun call hcall => ?_⟩
  · have hmem := List.mem_map_of_mem (f := Table.columnOf fun _ => false) hf
    change _ ∈ (FieldDef.ofMembers t.name 0 (t.columns.map ColumnEntry.member)).map _ at hmem
    rw [map_columnOf_ofMembers, List.map_map] at hmem
    obtain ⟨k, hk, hdecl⟩ := List.mem_map.1 hmem
    have hname : k.name = f.memberName := congrArg ColumnDecl.name hdecl
    exact hname ▸ hcolumns k hk
  · intro name hname
    rcases mem_calls hcall with ⟨k, hk, rfl⟩ | ⟨-, rfl⟩ | ⟨k, hk, rfl⟩
    · rw [List.mem_singleton.1 hname]
      exact hkeys k (hk ▸ List.mem_singleton_self k)
    · obtain ⟨k, hk, rfl⟩ := List.mem_map.1 hname
      exact hkeys k hk
    · exact h name (List.mem_append_right _ (List.mem_flatMap.2 ⟨k, hk, hname⟩))

end TableEntry

/-- A definition holds a column for every member that is not left out, in the order of the members,
and then the keys in the order of the calls, with commas between them. A table of a table file has
its columns in the order of the file, then the primary key and then the foreign keys. -/
theorem Table.create_lists_items (c : Compiler) :
    (∀ (s : Schema) (calls : List Call), Text.OneLine s.name →
      (∀ f ∈ s.fields, Text.OneLine f.memberName) →
      (∀ call ∈ calls, ∀ name ∈ call.names, Text.OneLine name) →
      if .compositeKey [] ∈ calls then
        run c s calls =
          .error (.missingArgument "members" "a composite key needs at least one member")
      else ∃ q, run c s calls = .ok q ∧ q.create.outcome.map Compiled.sql =
        .ok (createText c.dialect s.name (items c.dialect s calls))) ∧
    ∀ t : TableEntry, (∀ name ∈ t.names, Text.OneLine name) →
      (t.create c).map Compiled.sql = .ok (createText c.dialect t.name (t.items c.dialect)) := by
  refine ⟨fun s calls hname hfields hnames => ?_, fun t h => ?_⟩
  · split_ifs with hnil
    · exact run_eq_error c s hnil
    · exact exists_create c hnil hname hfields hnames
  · obtain ⟨hname, hfields, hnames⟩ := TableEntry.oneLine_names h
    obtain ⟨q, hrun, hsql⟩ := exists_create c t.compositeKey_nil_notMem hname hfields hnames
    rw [t.create_eq, hrun, ← t.items_calls]
    exact hsql

theorem Table.create_lists_items_orderLine :
    let s : Schema := .ofTable "OrderLine"
      [{ name := "Id", columnType := .int }, { name := "Note", columnType := .string },
        { name := "Price", columnType := .decimal, nullable := true }]
    let calls : List Call :=
      [.foreignKey "OrderId" "Orders" "Id", .ignore "Note", .key "Id" true]
    let t : TableEntry :=
      { name := "OrderLine"
        columns := [⟨"OrderId", .int, false, true, true⟩, ⟨"Line", .int, false, true, false⟩]
        foreignKeys := [⟨"OrderId", "Orders", "Id"⟩] }
    (∃ q, run {} s calls = .ok q ∧ q.create.outcome.map Compiled.sql = .ok
      ("CREATE TABLE IF NOT EXISTS OrderLine (Id integer NOT NULL PRIMARY KEY AUTOINCREMENT, " ++
        "Price decimal, FOREIGN KEY(OrderId) REFERENCES Orders(Id))")) ∧
    (t.create { dialect := .sqlServer }).map Compiled.sql = .ok
      ("CREATE TABLE OrderLine (OrderId int NOT NULL, Line int NOT NULL, " ++
        "PRIMARY KEY (OrderId, Line), FOREIGN KEY(OrderId) REFERENCES Orders(Id))") := by
  intro s calls t
  have hcreate := (create_lists_items {}).1 s calls (by decide) (by decide) (by decide)
  rw [if_neg (by decide)] at hcreate
  obtain ⟨q, hrun, hsql⟩ := hcreate
  refine ⟨⟨q, hrun, hsql.trans (congrArg Except.ok (by decide +kernel))⟩, ?_⟩
  exact ((create_lists_items { dialect := .sqlServer }).2 t (by decide)).trans
    (congrArg Except.ok (by decide +kernel))

end SqlComposer
