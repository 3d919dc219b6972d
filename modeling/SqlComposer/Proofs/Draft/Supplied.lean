import SqlComposer.Proofs.Draft.Distinct

/-!
# Select lists that were supplied

Supplying a statement with requested columns changes its open select lists and nothing else. Each
of them keeps its children in order, without the columns that nobody asked for, and the requested
columns that it lacked come behind. What has been supplied once stays as it is.
-/
namespace SqlComposer.Draft

variable {fields present : List ColumnRef} {first last : Key} {p p' : Part} {ps ps' : List Part}

/-! ### What a supplied list holds -/

theorem answers_self (f : ColumnRef) : answers f f = true := by
  rw [answers, beq_self_eq_true, Bool.true_or]

theorem any_answers_unmet {f : ColumnRef} (hf : f ∈ fields) :
    (present ++ unmet present fields).any (answers f) = true := by
  induction fields generalizing present with
  | nil => cases hf
  | cons g fields ih =>
    rw [unmet]
    rcases List.mem_cons.1 hf with rfl | hf
    · split_ifs with hpresent
      · rw [List.any_append, hpresent, Bool.true_or]
      · rw [List.any_append, List.any_cons, answers_self, Bool.true_or, Bool.or_true]
    · split_ifs
      · exact ih hf
      · have h : (present ++ [g] ++ unmet (present ++ [g]) fields).any (answers f) = true := ih hf
        rwa [List.append_assoc, List.singleton_append] at h

theorem unmet_sublist (present fields : List ColumnRef) : (unmet present fields).Sublist fields := by
  induction fields generalizing present with
  | nil => exact .slnil
  | cons f fields ih =>
    rw [unmet]
    split_ifs
    · exact (ih present).cons f
    · exact (ih _).cons_cons f

theorem unmet_eq_nil (h : ∀ f ∈ fields, present.any (answers f) = true) :
    unmet present fields = [] := by
  induction fields with
  | nil => rfl
  | cons f fields ih =>
    rw [List.forall_mem_cons] at h
    rw [unmet, if_pos h.1]
    exact ih h.2

theorem filterMap_field?_columns (key : Key) (added : List ColumnRef) :
    (columns key added).filterMap Part.field? = added := by
  induction added generalizing key with
  | nil => rfl
  | cons f added ih => exact congrArg (f :: ·) (ih (key + 1))

theorem any_covers_filter_stays {children : List Part} {f : ColumnRef} (hf : f ∈ fields) :
    (children.filter (stays fields)).any (covers f) = children.any (covers f) := by
  rw [List.any_filter]
  refine congrArg (children.any ·) (funext fun child => ?_)
  cases hcovers : covers f child with
  | false => rw [Bool.and_false]
  | true =>
    have hany : (fields.any fun f => covers f child) = true := List.any_eq_true.2 ⟨f, hf, hcovers⟩
    rw [stays, hany, Bool.or_true, Bool.and_true]

structure Holds (fields : List ColumnRef) (p : Part) : Prop where
  covered : ∀ f ∈ fields, p.children.any (covers f) = true
  asked : ∀ child ∈ p.children, stays fields child = true

theorem Supplies.holds (h : Supplies fields first last p p') (hp : IsOpenSelect p') :
    Holds fields p' := by
  cases h with
  | other hnot => exact absurd hp hnot
  | @list _ _ children key _ _ hadded =>
    subst hadded
    constructor
    · intro f hf
      have hanswered : (children.filterMap Part.field? ++
          unmet (children.filterMap Part.field?) fields).any (answers f) = true :=
        any_answers_unmet hf
      rw [List.any_append] at hanswered
      rw [Part.children, List.any_append, any_covers_filter_stays hf, any_covers, any_covers,
        filterMap_field?_columns]
      exact hanswered
    · intro child hchild
      rcases List.mem_append.1 hchild with hold | hnew
      · exact (List.mem_filter.1 hold).2
      · rcases exists_field_of_mem_columns hnew with ⟨k, f, hf, rfl⟩
        have hany : (fields.any fun g => covers g (.field k f)) = true :=
          List.any_eq_true.2 ⟨f, mem_of_mem_unmet hf, answers_self f⟩
        rw [stays, hany, Bool.or_true]

theorem SuppliesAll.holds (h : SuppliesAll fields first last ps ps') :
    ∀ p ∈ ps', IsOpenSelect p → Holds fields p := by
  induction h with
  | nil => exact List.forall_mem_nil _
  | cons hp _ ih => exact List.forall_mem_cons.2 ⟨hp.holds, ih⟩

theorem Supplies.eq_of_holds (h : Supplies fields first last p p')
    (hp : IsOpenSelect p → Holds fields p) : p' = p ∧ last = first := by
  cases h with
  | other => exact ⟨rfl, rfl⟩
  | @list head shape children key added htag hadded =>
    have hholds := hp ⟨htag, rfl, rfl⟩
    have hnone : added = [] := by
      rw [← hadded]
      refine unmet_eq_nil fun f hf => ?_
      rw [← any_covers]
      exact hholds.covered f hf
    have hstay : children.filter (stays fields) = children := List.filter_eq_self.2 hholds.asked
    rw [hstay, hnone]
    exact ⟨congrArg (Part.group head shape · false) (List.append_nil children), rfl⟩

theorem SuppliesAll.eq_of_holds (h : SuppliesAll fields first last ps ps')
    (hps : ∀ p ∈ ps, IsOpenSelect p → Holds fields p) : ps' = ps ∧ last = first := by
  induction h with
  | nil => exact ⟨rfl, rfl⟩
  | cons hp _ ih =>
    rw [List.forall_mem_cons] at hps
    rcases hp.eq_of_holds hps.1 with ⟨rfl, rfl⟩
    rcases ih hps.2 with ⟨rfl, rfl⟩
    exact ⟨rfl, rfl⟩

variable {d : Draft}

theorem supplyFields_supplyFields (hd : Edit.Distinct d) (fields : List ColumnRef) :
    (d.supplyFields fields).supplyFields fields = d.supplyFields fields := by
  have hholds := (Edit.suppliesAll_supplyFields hd fields).holds
  have hagain := Edit.suppliesAll_supplyFields (Edit.distinct_supplyFields hd fields).1 fields
  rcases hagain.eq_of_holds hholds with ⟨hparts, hkey⟩
  generalize d.supplyFields fields = supplied at *
  calc supplied.supplyFields fields
      = { supplied with
          parts := (supplied.supplyFields fields).parts
          nextKey := (supplied.supplyFields fields).nextKey } := rfl
    _ = supplied := by rw [hparts, hkey]

/-- Supplying goes through the statement once. An open select list keeps its children in order,
without the columns that nobody asked for, and what it lacks comes behind, each column once.
Everything else stays, and supplying the same columns again changes nothing. -/
theorem select_lists_supplied (hd : Edit.Distinct d) (fields : List ColumnRef) :
    SuppliesAll fields d.nextKey (d.supplyFields fields).nextKey d.parts
        (d.supplyFields fields).parts ∧
      (d.supplyFields fields).shape = d.shape ∧ (d.supplyFields fields).aliases = d.aliases ∧
      Edit.Distinct (d.supplyFields fields) ∧
      (∀ p ∈ (d.supplyFields fields).parts, IsOpenSelect p → Holds fields p) ∧
      (∀ present, (unmet present fields).Sublist fields ∧
        ((unmet present fields).map ColumnRef.field).Nodup ∧
        ∀ f ∈ unmet present fields, present.any (answers f) = false) ∧
      (d.supplyFields fields).supplyFields fields = d.supplyFields fields := by
  have hsupplies := Edit.suppliesAll_supplyFields hd fields
  refine ⟨hsupplies, rfl, rfl, (Edit.distinct_supplyFields hd fields).1, hsupplies.holds, ?_,
    supplyFields_supplyFields hd fields⟩
  intro present
  exact ⟨unmet_sublist present fields, nodup_field_unmet present fields,
    fun _ hf => not_any_answers_of_mem_unmet hf⟩

/-- A column is kept for its alias, a closed list is left alone, and a column that is asked for
twice comes once. -/
theorem select_lists_supplied_by_alias :
    let old : ColumnRef := { field := "Old" }
    let name : ColumnRef := { field := "Name", resultAlias := some "OrderName" }
    let d : Draft :=
      { parts := [.list 1 .select [.field 2 name, .text 3 .plain "1", .field 4 old],
          .group { key := 5, tag := .select } .list [.field 6 old] true, .field 7 old]
        nextKey := 8 }
    let fields : List ColumnRef := [{ field := "OrderName" }, { field := "Id" }, { field := "Id" }]
    Edit.Distinct d ∧
      (d.supplyFields fields).parts =
        [.list 1 .select [.field 2 name, .text 3 .plain "1", .field 8 { field := "Id" }],
          .group { key := 5, tag := .select } .list [.field 6 old] true, .field 7 old] ∧
      SuppliesAll fields 8 9 d.parts (d.supplyFields fields).parts ∧
      (d.supplyFields fields).supplyFields fields = d.supplyFields fields := by
  intro old name d fields
  have hd : Edit.Distinct d := ⟨by decide, by decide⟩
  obtain ⟨hsupplies, -, -, -, -, -, hagain⟩ := select_lists_supplied hd fields
  exact ⟨hd, rfl, hsupplies, hagain⟩

end SqlComposer.Draft
