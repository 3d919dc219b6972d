import SqlComposer.Proofs.Table.Written

/-!
# The columns of a definition

How many columns a definition has of a name, which of them number the rows, in which order they
stand, and when no key stands in front of them.
-/
namespace SqlComposer.Table

variable {s : Schema} {requests : List Request} {member : String}

/-! ### Columns of one name -/

theorem membersOf_keptMembers (s : Schema) (requests : List Request) (member : String) :
    membersOf member (keptMembers s requests) =
      if .collect (.ignore member) ∈ requests then 0 else membersOf member s.fields := by
  have hfilter := membersOf_filter (fun member => decide (.collect (.ignore member) ∉ requests))
    s.fields member
  rw [keptMembers, hfilter]
  by_cases hignored : .collect (.ignore member) ∈ requests <;> simp [hignored]

theorem isSome_field?_iff : (s.field? member).isSome ↔ membersOf member s.fields ≠ 0 := by
  rw [Schema.field?, List.find?_isSome, ne_eq, membersOf, List.countP_eq_zero]
  simp

theorem columnsOf_memberColumns (s : Schema) (requests : List Request) (member : String) :
    columnsOf member (memberColumns s requests) =
      if membersOf member s.fields = 0 then 0 else columnsOf member (declarations s requests) := by
  rw [memberColumns, columnsOf_filter fun name => (s.field? name).isSome]
  simp only [isSome_field?_iff, ite_not]

theorem columnsOf_extraColumns (s : Schema) (requests : List Request) (member : String) :
    columnsOf member (extraColumns s requests) =
      if membersOf member s.fields = 0 then columnsOf member (declarations s requests) else 0 := by
  have hnone : (s.field? member).isNone = true ↔ membersOf member s.fields = 0 := by
    rw [← Option.not_isSome, Bool.not_eq_true', ← Bool.not_eq_true, isSome_field?_iff, not_not]
  rw [extraColumns, columnsOf_filter fun name => (s.field? name).isNone]
  simp only [hnone]

theorem columnsOf_definedColumns (s : Schema) (requests : List Request) (member : String) :
    columnsOf member (definedColumns s requests) =
      max (membersOf member (keptMembers s requests))
        (columnsOf member (declarations s requests)) := by
  have hkept := membersOf_keptMembers s requests member
  rw [definedColumns, columnsOf_append, columnsOf_append, settled, columnsOf_fst_settle,
    columnsOf_snd_settle, columnsOf_memberColumns, columnsOf_extraColumns]
  split_ifs at hkept ⊢ <;> omega

theorem numberingsOf_definedColumns (s : Schema) (requests : List Request) (member : String) :
    numberingsOf member (definedColumns s requests) =
      if .collect (.key member true) ∈ requests ∧ .collect (.ignore member) ∉ requests then
        membersOf member s.fields - columnsOf member (declarations s requests)
      else 0 := by
  have hmembers : ∀ decl ∈ memberColumns s requests, decl.autoIncrement = false := fun decl h =>
    autoIncrement_of_mem_declarations (List.mem_of_mem_filter h)
  have hextra : ∀ decl ∈ extraColumns s requests, decl.autoIncrement = false := fun decl h =>
    autoIncrement_of_mem_declarations (List.mem_of_mem_filter h)
  have hrest : ∀ decl ∈ (settled s requests).2, decl.autoIncrement = false := fun decl h =>
    hmembers decl (snd_settle_subset _ _ _ h)
  rw [definedColumns, numberingsOf_append, numberingsOf_append, numberingsOf_eq_zero hextra,
    numberingsOf_eq_zero hrest, settled, numberingsOf_fst_settle hmembers, membersOf_keptMembers,
    columnsOf_memberColumns]
  simp only [decide_eq_true_eq]
  split_ifs <;> grind

/-! ### The order of the columns -/

theorem find?_memberColumns {f : FieldDef} (hf : f ∈ s.fields) :
    (memberColumns s requests).find? (fun decl => decl.name == f.memberName) =
      (declarations s requests).find? fun decl => decl.name == f.memberName := by
  rw [memberColumns, List.find?_filter]
  congr 1
  funext decl
  rw [Bool.eq_iff_iff, decide_eq_true_iff, beq_iff_eq, and_iff_right_iff_imp]
  intro hname
  rw [hname, Schema.field?, List.find?_isSome]
  exact ⟨f, hf, beq_self_eq_true _⟩

theorem name_mem_keptMembers {decl : ColumnDecl} (hdecl : decl ∈ memberColumns s requests)
    (hshown : .collect (.ignore decl.name) ∉ requests) :
    decl.name ∈ (keptMembers s requests).map FieldDef.memberName := by
  obtain ⟨f, hf, hname⟩ := List.find?_isSome.1 (List.mem_filter.1 hdecl).2
  rw [beq_iff_eq] at hname
  rw [← hname] at hshown ⊢
  exact List.mem_map_of_mem (List.mem_filter.2 ⟨hf, decide_eq_true hshown⟩)

theorem definedColumns_of_nodup (hmembers : (s.fields.map FieldDef.memberName).Nodup)
    (hnames : ((declarations s requests).map ColumnDecl.name).Nodup)
    (hshown : ∀ decl ∈ memberColumns s requests, .collect (.ignore decl.name) ∉ requests) :
    definedColumns s requests =
      (keptMembers s requests).map (fun f =>
        ((declarations s requests).find? fun decl => decl.name == f.memberName).getD
          (columnOf (fun member => decide (.collect (.key member true) ∈ requests)) f)) ++
        extraColumns s requests := by
  have hkept : ((keptMembers s requests).map FieldDef.memberName).Nodup :=
    hmembers.sublist (List.filter_sublist.map _)
  have hdeclared : ((memberColumns s requests).map ColumnDecl.name).Nodup :=
    hnames.sublist (List.filter_sublist.map _)
  have hrest : (settled s requests).2 = [] := snd_settle_of_nodup _ hdeclared fun decl hdecl =>
    name_mem_keptMembers hdecl (hshown decl hdecl)
  rw [definedColumns, hrest, List.append_nil, settled, fst_settle_of_nodup _ hdeclared hkept]
  congr 1
  refine List.map_congr_left fun f hf => ?_
  rw [find?_memberColumns (List.mem_of_mem_filter hf)]

/-! ### Definitions -/

/-- The keys stand in the order of the calls, around columns that stand together. The calls decide
whether there is one in front of them. -/
theorem create_orders_keys (c : Compiler) (hcalls : ∀ request ∈ requests, request.IsAccepted s) :
    ∃ q compiled before columns behind, requested c s requests = .ok q ∧
      q.create.outcome = .ok compiled ∧
      Lists compiled c.dialect s.name before columns behind ∧
      before ++ behind = keyTexts requests ∧
      (before = [] ∨ columns = [] ↔ KeysFollow s requests) ∧
      (ColumnsLead compiled.tree ↔ KeysFollow s requests) := by
  obtain ⟨q, compiled, before, behind, hq, hcompiled, hlists, hkeys, hbefore, hlead⟩ :=
    exists_lists c hcalls
  exact ⟨q, compiled, before, _, behind, hq, hcompiled, hlists, hkeys, hbefore, hlead⟩

/-- The foreign key is asked for behind the column that the schema does not know. -/
theorem create_orders_keys_note :
    let s : Schema := .ofTable "Customer"
      [{ name := "Id", columnType := .int }, { name := "Name", columnType := .string }]
    let requests : List Request :=
      [.collect (.ignore "Name"), .column "Note" .declare (some .string) none,
        .collect (.foreignKey "Note" "Notes" "Id"), .column "Id" .declare none none,
        .collect (.compositeKey ["Id", "Note"])]
    (∀ request ∈ requests, request.IsAccepted s) ∧ KeysFollow s requests ∧
      ∃ q compiled, requested {} s requests = .ok q ∧ q.create.outcome = .ok compiled ∧
        ColumnsLead compiled.tree := by
  intro s requests
  have hcalls : ∀ request ∈ requests, request.IsAccepted s := by decide
  have hfollow : KeysFollow s requests := by decide
  obtain ⟨q, compiled, _, _, _, hq, hcompiled, -, -, -, hlead⟩ := create_orders_keys {} hcalls
  exact ⟨hcalls, hfollow, q, compiled, hq, hcompiled, hlead.2 hfollow⟩

/-- The key stays in front of the column that the schema does not know, and of all others. -/
theorem key_ahead_of_columns :
    let s : Schema := .ofTable "Customer" [{ name := "Id", columnType := .int }]
    let requests : List Request :=
      [.collect (.key "Id" false), .column "Note" .declare (some .string) none]
    let created := (finished {} s requests .create).result?
    created.map (fun compiled => decide (ColumnsLead compiled.tree)) = some false ∧
      created.map Compiled.sql = some ("CREATE TABLE IF NOT EXISTS Customer " ++
        "(PRIMARY KEY (Id), Id int NOT NULL, Note varchar(1000))") := by
  decide +kernel

/-- A member has as many columns as are declared for it, and at least one unless it is left out. -/
theorem create_counts_columns (c : Compiler) (hmembers : (s.fields.map FieldDef.memberName).Nodup)
    (hcalls : ∀ request ∈ requests, request.IsAccepted s) :
    ∃ q compiled columns, requested c s requests = .ok q ∧ q.create.outcome = .ok compiled ∧
      (columnParts compiled.tree).map Part.decl? = columns.map some ∧
      ∀ f ∈ s.fields, columnsOf f.memberName columns =
        if .collect (.ignore f.memberName) ∈ requests then
          columnsOf f.memberName (declarations s requests)
        else max 1 (columnsOf f.memberName (declarations s requests)) := by
  obtain ⟨q, compiled, before, behind, hq, hcompiled, hlists, -⟩ := exists_lists c hcalls
  refine ⟨q, compiled, _, hq, hcompiled, hlists.decls, fun f hf => ?_⟩
  rw [columnsOf_definedColumns, membersOf_keptMembers, membersOf_of_nodup hmembers hf]
  split_ifs
  · exact Nat.zero_max _
  · rfl

theorem create_counts_columns_customer :
    let s : Schema := .ofTable "Customer"
      [{ name := "Id", columnType := .int }, { name := "Name", columnType := .string },
        { name := "Email", columnType := .string }]
    let requests : List Request :=
      [.column "Email" .declare none none, .collect (.ignore "Name"), .collect (.key "Id" false),
        .column "Email" .declare (some .char) none]
    (s.fields.map FieldDef.memberName).Nodup ∧ (∀ request ∈ requests, request.IsAccepted s) ∧
      ∃ q compiled columns, requested {} s requests = .ok q ∧ q.create.outcome = .ok compiled ∧
        (columnParts compiled.tree).map Part.decl? = columns.map some ∧
        columnsOf "Id" columns = 1 ∧ columnsOf "Name" columns = 0 ∧ columnsOf "Email" columns = 2 := by
  intro s requests
  have hmembers : (s.fields.map FieldDef.memberName).Nodup := by decide
  have hcalls : ∀ request ∈ requests, request.IsAccepted s := by decide
  obtain ⟨q, compiled, columns, hq, hcompiled, hdecls, hcounts⟩ :=
    create_counts_columns {} hmembers hcalls
  refine ⟨hmembers, hcalls, q, compiled, columns, hq, hcompiled, hdecls, ?_, ?_, ?_⟩
  · exact hcounts _ (.head _)
  · exact hcounts _ (.tail _ (.head _))
  · exact hcounts _ (.tail _ (.tail _ (.head _)))

/-- A column that is declared for a member comes back although the member is left out, and a second
one comes beside the first. -/
theorem ignored_member_declared :
    let s : Schema := .ofTable "Customer"
      [{ name := "Id", columnType := .int }, { name := "Email", columnType := .string }]
    let columns (requests : List Request) := (finished {} s requests .create).result?.map
      fun compiled => (columnParts compiled.tree).map Part.id?
    columns [.collect (.ignore "Email"), .column "Email" .declare none none] =
        some [some "Id", some "Email"] ∧
      columns [.column "Email" .declare none none, .column "Email" .declare none none] =
        some [some "Id", some "Email", some "Email"] := by
  decide +kernel

/-- A member keeps the key that numbers the rows unless a column is declared for it. -/
theorem create_numbers_rows (c : Compiler) (hcalls : ∀ request ∈ requests, request.IsAccepted s) :
    ∃ q compiled before columns behind, requested c s requests = .ok q ∧
      q.create.outcome = .ok compiled ∧
      Lists compiled c.dialect s.name before columns behind ∧
      before ++ behind = keyTexts requests ∧
      ∀ member, numberingsOf member columns =
        if .collect (.key member true) ∈ requests ∧ .collect (.ignore member) ∉ requests then
          membersOf member s.fields - columnsOf member (declarations s requests)
        else 0 := by
  obtain ⟨q, compiled, before, behind, hq, hcompiled, hlists, hkeys, -⟩ := exists_lists c hcalls
  exact ⟨q, compiled, before, _, behind, hq, hcompiled, hlists, hkeys,
    numberingsOf_definedColumns s requests⟩

theorem create_numbers_rows_customer :
    let s : Schema := .ofTable "Customer"
      [{ name := "Id", columnType := .int }, { name := "Name", columnType := .string }]
    let requests : List Request :=
      [.column "Name" .declare none (some true), .collect (.foreignKey "Name" "Names" "Name"),
        .collect (.key "Id" true)]
    (∀ request ∈ requests, request.IsAccepted s) ∧
      ∃ q compiled before columns behind, requested {} s requests = .ok q ∧
        q.create.outcome = .ok compiled ∧
        Lists compiled .sqlite "Customer" before columns behind ∧
        before ++ behind = ["FOREIGN KEY(Name) REFERENCES Names(Name)"] ∧
        numberingsOf "Id" columns = 1 ∧ numberingsOf "Name" columns = 0 := by
  intro s requests
  have hcalls : ∀ request ∈ requests, request.IsAccepted s := by decide
  obtain ⟨q, compiled, before, columns, behind, hq, hcompiled, hlists, hkeys, hnumbers⟩ :=
    create_numbers_rows {} hcalls
  exact ⟨hcalls, q, compiled, before, columns, behind, hq, hcompiled, hlists,
    hkeys.trans (by decide +kernel), hnumbers "Id", hnumbers "Name"⟩

/-- The declared column takes the place of the one that would number the rows. -/
theorem numbered_member_declared :
    let s : Schema := .ofTable "Customer" [{ name := "Id", columnType := .int }]
    let requests : List Request := [.collect (.key "Id" true), .column "Id" .declare none none]
    (finished {} s requests .create).result?.map Compiled.sql =
      some "CREATE TABLE IF NOT EXISTS Customer (Id int NOT NULL)" := by
  decide +kernel

/-- The columns of the members that are not left out, in their order and as they were declared, and
then those of unknown names. -/
theorem create_keeps_order {c : Compiler} {q : Table}
    (hmembers : (s.fields.map FieldDef.memberName).Nodup)
    (hnames : ((declarations s requests).map ColumnDecl.name).Nodup)
    (hshown : ∀ decl ∈ memberColumns s requests, .collect (.ignore decl.name) ∉ requests)
    (hcalls : requested c s requests = .ok q) :
    ∃ compiled, q.create.outcome = .ok compiled ∧
      (columnParts compiled.tree).map Part.decl? =
        ((keptMembers s requests).map (fun f =>
          ((declarations s requests).find? fun decl => decl.name == f.memberName).getD
            (columnOf (fun member => decide (.collect (.key member true) ∈ requests)) f)) ++
          extraColumns s requests).map some := by
  obtain ⟨compiled, _, _, _, hcompiled, htree, hdefined⟩ := exists_create_of_requested hcalls
  refine ⟨compiled, hcompiled, ?_⟩
  rw [hdefined.map_decl? htree, definedColumns_of_nodup hmembers hnames hshown]

theorem create_keeps_order_customer :
    let s : Schema := .ofTable "Customer"
      [{ name := "Id", columnType := .int }, { name := "Name", columnType := .string },
        { name := "Email", columnType := .string }]
    let requests : List Request :=
      [.column "Note" .declare (some .string) none, .collect (.key "Id" true), .collect (.ignore "Note"),
        .column "Email" .declare (some .char) (some true), .collect (.ignore "Name"),
        .column "Age" .declare (some .int) (some false)]
    (s.fields.map FieldDef.memberName).Nodup ∧
      ((declarations s requests).map ColumnDecl.name).Nodup ∧
      (∀ decl ∈ memberColumns s requests, .collect (.ignore decl.name) ∉ requests) ∧
      ∃ q, requested {} s requests = .ok q ∧ ∃ compiled, q.create.outcome = .ok compiled ∧
        (columnParts compiled.tree).map Part.decl? =
          [some ⟨"Id", .int, false, true⟩, some ⟨"Email", .char, true, false⟩,
            some ⟨"Note", .string, true, false⟩, some ⟨"Age", .int, false, false⟩] := by
  intro s requests
  have hmembers : (s.fields.map FieldDef.memberName).Nodup := by decide
  have hnames : ((declarations s requests).map ColumnDecl.name).Nodup := by decide
  have hshown : ∀ decl ∈ memberColumns s requests, .collect (.ignore decl.name) ∉ requests := by decide
  obtain ⟨q, hq⟩ : ∃ q, requested {} s requests = .ok q := ⟨_, rfl⟩
  obtain ⟨compiled, hcompiled, hcolumns⟩ := create_keeps_order hmembers hnames hshown hq
  exact ⟨hmembers, hnames, hshown, q, hq, compiled, hcompiled, hcolumns.trans (by decide +kernel)⟩

end SqlComposer.Table
