import SqlComposer.Proofs.Schema
import SqlComposer.Proofs.Table.Flat

/-!
# Members and declared columns

The last member first, each member takes a column that was declared under its name, and one that
finds none is declared from the schema. What is left at the end stays declared.
-/
namespace SqlComposer.Table

def settleMember (numbered : String → Bool) (f : FieldDef) :
    List ColumnDecl × List ColumnDecl → List ColumnDecl × List ColumnDecl
  | (columns, declared) =>
    match swapTake? (fun decl => decl.name == f.memberName) declared with
    | some (decl, rest) => (decl :: columns, rest)
    | none => (columnOf numbered f :: columns, declared)

/-- The columns of the members, and the declared ones that are left. -/
def settle (numbered : String → Bool) (fields : List FieldDef) (declared : List ColumnDecl) :
    List ColumnDecl × List ColumnDecl :=
  fields.foldr (settleMember numbered) ([], declared)

variable {numbered : String → Bool} {f : FieldDef} {fields : List FieldDef}
  {declared : List ColumnDecl}

theorem settle_cons (numbered : String → Bool) (f : FieldDef) (fields : List FieldDef)
    (declared : List ColumnDecl) :
    (settle numbered (f :: fields) declared =
        (columnOf numbered f :: (settle numbered fields declared).1,
          (settle numbered fields declared).2) ∧
      ∀ decl ∈ (settle numbered fields declared).2, decl.name ≠ f.memberName) ∨
    ∃ decl rest, settle numbered (f :: fields) declared =
        (decl :: (settle numbered fields declared).1, rest) ∧
      decl.name = f.memberName ∧ (settle numbered fields declared).2.Perm (decl :: rest) := by
  rw [settle, List.foldr_cons, ← settle, settleMember]
  rcases swapTake?_cases (fun decl => decl.name == f.memberName)
    (settle numbered fields declared).2 with ⟨htake, hnone⟩ | ⟨decl, rest, htake, hname, hperm⟩
  · refine .inl ⟨by simp only [htake], fun decl hdecl => ?_⟩
    simpa using hnone decl hdecl
  · exact .inr ⟨decl, rest, by simp only [htake], by simpa using hname, hperm⟩

theorem map_name_settle (numbered : String → Bool) (fields : List FieldDef)
    (declared : List ColumnDecl) :
    (settle numbered fields declared).1.map ColumnDecl.name = fields.map FieldDef.memberName := by
  induction fields with
  | nil => rfl
  | cons f fields ih =>
    rcases settle_cons numbered f fields declared with ⟨heq, -⟩ | ⟨decl, rest, heq, hname, -⟩
    · rw [heq, List.map_cons, ih]
      rfl
    · rw [heq, List.map_cons, ih, hname, List.map_cons]

theorem settle_nil (numbered : String → Bool) (fields : List FieldDef) :
    settle numbered fields [] = (fields.map (columnOf numbered), []) := by
  induction fields with
  | nil => rfl
  | cons f fields ih =>
    rw [settle, List.foldr_cons, ← settle, ih]
    rfl

/-! ### How many there are of a name -/

def membersOf (member : String) (fields : List FieldDef) : Nat :=
  fields.countP fun f => f.memberName == member

def columnsOf (member : String) (columns : List ColumnDecl) : Nat :=
  columns.countP fun decl => decl.name == member

def numberingsOf (member : String) (columns : List ColumnDecl) : Nat :=
  columns.countP fun decl => decl.name == member && decl.autoIncrement

theorem membersOf_cons (member : String) (f : FieldDef) (fields : List FieldDef) :
    membersOf member (f :: fields) =
      membersOf member fields + if f.memberName = member then 1 else 0 := by
  simp [membersOf, List.countP_cons]

theorem membersOf_eq_zero {member : String} {fields : List FieldDef} :
    membersOf member fields = 0 ↔ member ∉ fields.map FieldDef.memberName := by
  simp [membersOf, List.countP_eq_zero]

theorem membersOf_of_nodup {f : FieldDef} {fields : List FieldDef}
    (hnames : (fields.map FieldDef.memberName).Nodup) (hf : f ∈ fields) :
    membersOf f.memberName fields = 1 := by
  have hcount := List.count_eq_one_of_mem hnames (List.mem_map_of_mem hf)
  rwa [List.count, List.countP_map] at hcount

theorem columnsOf_cons (member : String) (decl : ColumnDecl) (columns : List ColumnDecl) :
    columnsOf member (decl :: columns) =
      columnsOf member columns + if decl.name = member then 1 else 0 := by
  simp [columnsOf, List.countP_cons]

theorem columnsOf_append (member : String) (columns more : List ColumnDecl) :
    columnsOf member (columns ++ more) = columnsOf member columns + columnsOf member more :=
  List.countP_append

theorem columnsOf_perm {columns columns' : List ColumnDecl} (h : columns.Perm columns')
    (member : String) : columnsOf member columns = columnsOf member columns' :=
  h.countP_eq _

theorem columnsOf_eq_zero {member : String} {columns : List ColumnDecl} :
    columnsOf member columns = 0 ↔ ∀ decl ∈ columns, decl.name ≠ member := by
  simp [columnsOf, List.countP_eq_zero]

theorem numberingsOf_cons (member : String) (decl : ColumnDecl) (columns : List ColumnDecl) :
    numberingsOf member (decl :: columns) = numberingsOf member columns +
      if decl.name = member ∧ decl.autoIncrement = true then 1 else 0 := by
  simp [numberingsOf, List.countP_cons]

theorem numberingsOf_append (member : String) (columns more : List ColumnDecl) :
    numberingsOf member (columns ++ more) =
      numberingsOf member columns + numberingsOf member more :=
  List.countP_append

theorem numberingsOf_eq_zero {columns : List ColumnDecl}
    (h : ∀ decl ∈ columns, decl.autoIncrement = false) (member : String) :
    numberingsOf member columns = 0 :=
  List.countP_eq_zero.2 fun decl hdecl => by simp [h decl hdecl]

theorem countP_filter_name {α : Type} (name : α → String) (p : String → Bool) (l : List α)
    (member : String) :
    (l.filter fun a => p (name a)).countP (fun a => name a == member) =
      if p member then l.countP fun a => name a == member else 0 := by
  rw [List.countP_filter]
  split_ifs with hp
  · refine List.countP_congr fun a _ => ?_
    rw [Bool.and_eq_true, and_iff_left_iff_imp, beq_iff_eq]
    exact fun hname => hname ▸ hp
  · refine List.countP_eq_zero.2 fun a _ => ?_
    rw [Bool.and_eq_true, beq_iff_eq, not_and]
    exact fun hname => hname ▸ hp

theorem membersOf_filter (p : String → Bool) (fields : List FieldDef) (member : String) :
    membersOf member (fields.filter fun f => p f.memberName) =
      if p member then membersOf member fields else 0 :=
  countP_filter_name ..

theorem columnsOf_filter (p : String → Bool) (columns : List ColumnDecl) (member : String) :
    columnsOf member (columns.filter fun decl => p decl.name) =
      if p member then columnsOf member columns else 0 :=
  countP_filter_name ..

theorem columnsOf_fst_settle (numbered : String → Bool) (fields : List FieldDef)
    (declared : List ColumnDecl) (member : String) :
    columnsOf member (settle numbered fields declared).1 = membersOf member fields := by
  have hnames := congrArg (List.countP (· == member)) (map_name_settle numbered fields declared)
  rwa [List.countP_map, List.countP_map] at hnames

/-- Each member of a name takes one of the columns that are declared under it. -/
theorem columnsOf_snd_settle (numbered : String → Bool) (fields : List FieldDef)
    (declared : List ColumnDecl) (member : String) :
    columnsOf member (settle numbered fields declared).2 =
      columnsOf member declared - membersOf member fields := by
  induction fields with
  | nil => rfl
  | cons f fields ih =>
    rw [membersOf_cons]
    rcases settle_cons numbered f fields declared with ⟨heq, hnone⟩ | ⟨decl, rest, heq, hname, hperm⟩
    · simp only [heq]
      split_ifs with hmember
      · have hzero := columnsOf_eq_zero.2 (hmember ▸ hnone)
        omega
      · exact ih
    · have hcount := columnsOf_perm hperm member
      rw [columnsOf_cons, hname] at hcount
      simp only [heq]
      split_ifs at hcount ⊢ <;> omega

theorem snd_settle_subset (numbered : String → Bool) (fields : List FieldDef)
    (declared : List ColumnDecl) : (settle numbered fields declared).2 ⊆ declared := by
  induction fields with
  | nil => exact List.Subset.refl _
  | cons f fields ih =>
    rcases settle_cons numbered f fields declared with ⟨heq, -⟩ | ⟨decl, rest, heq, -, hperm⟩
    · rwa [heq]
    · rw [heq]
      exact fun d hd => ih (hperm.mem_iff.2 (List.mem_cons_of_mem _ hd))

/-- Only a member for which no declared column is left can number the rows. -/
theorem numberingsOf_fst_settle (hdeclared : ∀ decl ∈ declared, decl.autoIncrement = false)
    (member : String) :
    numberingsOf member (settle numbered fields declared).1 =
      if numbered member then membersOf member fields - columnsOf member declared else 0 := by
  induction fields with
  | nil => simp [settle, numberingsOf, membersOf]
  | cons f fields ih =>
    have hleft := columnsOf_snd_settle numbered fields declared member
    rw [membersOf_cons]
    rcases settle_cons numbered f fields declared with ⟨heq, hnone⟩ | ⟨decl, rest, heq, hname, hperm⟩
    · rw [heq, numberingsOf_cons, ih]
      change _ + (if f.memberName = member ∧ numbered f.memberName = true then 1 else 0) = _
      by_cases hmember : f.memberName = member
      · have hzero := columnsOf_eq_zero.2 (hmember ▸ hnone)
        rw [hmember]
        split_ifs <;> grind
      · simp [hmember]
    · have hnumbers : decl.autoIncrement = false :=
        hdeclared decl (snd_settle_subset numbered fields declared
          (hperm.mem_iff.2 List.mem_cons_self))
      have hcount := columnsOf_perm hperm member
      rw [columnsOf_cons, hname] at hcount
      rw [heq, numberingsOf_cons, ih, hnumbers]
      -- the member takes a column, so there are no fewer columns than members
      split_ifs at hcount ⊢ <;> grind

/-! ### Names that are declared once -/

theorem find?_name {columns : List ColumnDecl} (hnodup : (columns.map ColumnDecl.name).Nodup)
    {decl : ColumnDecl} (hdecl : decl ∈ columns) :
    columns.find? (fun d => d.name == decl.name) = some decl :=
  find?_eq_some_of_only hdecl (beq_self_eq_true _) fun _ hd hname =>
    List.inj_on_of_nodup_map hnodup hd hdecl (beq_iff_eq.1 hname)

theorem fst_settle_of_nodup (numbered : String → Bool)
    (hdeclared : (declared.map ColumnDecl.name).Nodup)
    (hfields : (fields.map FieldDef.memberName).Nodup) :
    (settle numbered fields declared).1 = fields.map fun f =>
      (declared.find? fun decl => decl.name == f.memberName).getD (columnOf numbered f) := by
  induction fields with
  | nil => rfl
  | cons f fields ih =>
    rw [List.map_cons, List.nodup_cons] at hfields
    rcases settle_cons numbered f fields declared with ⟨heq, hnone⟩ | ⟨decl, rest, heq, hname, hperm⟩
    · have hleft := columnsOf_snd_settle numbered fields declared f.memberName
      rw [columnsOf_eq_zero.2 hnone, membersOf_eq_zero.2 hfields.1, Nat.sub_zero] at hleft
      have hother := columnsOf_eq_zero.1 hleft.symm
      have hfind : declared.find? (fun decl => decl.name == f.memberName) = none := by
        simpa [List.find?_eq_none] using hother
      simp only [heq, ih hfields.2, List.map_cons, hfind, Option.getD_none]
    · have hdecl : decl ∈ declared :=
        snd_settle_subset numbered fields declared (hperm.mem_iff.2 List.mem_cons_self)
      have hfind := find?_name hdeclared hdecl
      rw [hname] at hfind
      simp only [heq, ih hfields.2, List.map_cons, hfind, Option.getD_some]

theorem snd_settle_of_nodup (numbered : String → Bool)
    (hdeclared : (declared.map ColumnDecl.name).Nodup)
    (hmembers : ∀ decl ∈ declared, decl.name ∈ fields.map FieldDef.memberName) :
    (settle numbered fields declared).2 = [] := by
  rw [List.eq_nil_iff_forall_not_mem]
  intro decl hdecl
  have hmem := snd_settle_subset numbered fields declared hdecl
  have hleft := columnsOf_snd_settle numbered fields declared decl.name
  have hdecls : columnsOf decl.name declared ≤ 1 := by
    have hcount := List.nodup_iff_count_le_one.1 hdeclared decl.name
    rwa [List.count, List.countP_map] at hcount
  have hfields : membersOf decl.name fields ≠ 0 := fun hzero =>
    membersOf_eq_zero.1 hzero (hmembers decl hmem)
  exact columnsOf_eq_zero.1 (by omega) decl hdecl rfl

end SqlComposer.Table
