import SqlComposer.Proofs.Draft.Edit

/-!
# Edits along a run

Along a run of edits the keys of all parts stay distinct, every insertion is one block of the
sequence, and parts never change their order.
-/
namespace SqlComposer.Edit

open SqlComposer.Part (keysAll sequenceAll)

/-- Keys differ, and the keys that are still to come are new. -/
structure Distinct (d : Draft) : Prop where
  nodup : d.keys.Nodup
  lt : ∀ k ∈ d.keys, k < d.nextKey

variable {d : Draft}

theorem keysAll_expression (d : Draft) (scope : Scope) (e : Expr) (tag : Tag) :
    keysAll [expression d scope e tag] =
      List.range' d.nextKey ((scope.atoms e).value.length + 1) := by
  rw [Part.keysAll_cons, Part.keys_eq, expression, Part.clause, Part.children, keysAll,
    Part.flattenAll_ofAtoms, Part.ofAtoms_keys, Part.keysAll_nil, List.append_nil, List.range'_succ]
  rfl

theorem extendClause_value (d : Draft) (group : Key) (scope : Scope) (e : Expr) :
    (d.extendClause group scope e).value =
      if (d.find? group).any Part.isGroup then
        d.spend (scope.atoms e).value.length (d.update group fun g =>
          (Part.ofAtoms d.nextKey (scope.atoms e).value).foldl (fun g c => Part.push c g) g)
      else d := by
  rw [Draft.extendClause]
  cases d.find? group with
  | none => rfl
  | some g => cases g <;> rfl

theorem inserted_fresh (hd : Distinct d) {edit : Edit} (hfit : edit.Fits d) :
    (keysAll (edit.inserted d)).Nodup ∧
      ∀ k ∈ keysAll (edit.inserted d), k ∉ d.keys ∧ k < (edit.apply d).nextKey := by
  have houtside : (keysAll edit.outside).Nodup ∧
      ∀ k ∈ keysAll edit.outside, k ∉ d.keys ∧ k < d.nextKey :=
    ⟨hfit.2.1, fun k hk => (hfit.2.2 k hk).symm⟩
  have hmade {keys : List Key} (n : Nat) (hkeys : keys = List.range' d.nextKey n) :
      keys.Nodup ∧ ∀ k ∈ keys, k ∉ d.keys ∧ k < d.nextKey + n := by
    subst hkeys
    refine ⟨List.nodup_range', fun k hk => ?_⟩
    obtain ⟨hle, hlt⟩ := List.mem_range'_1.1 hk
    exact ⟨fun hold => Nat.not_lt.2 hle (hd.lt k hold), hlt⟩
  cases edit with
  | makeParts | remove | close | supplyFields | closeSelect =>
    exact ⟨List.nodup_nil, fun k hk => absurd hk List.not_mem_nil⟩
  | add | addBefore | addAfter | addAheadOf | addToLast | addToLastWhere | push => exact houtside
  | addText | addList | insertSource | addField => exact hmade 1 rfl
  | addExpression scope e tag | nestExpression scope e tag _ =>
    exact hmade _ (keysAll_expression d scope e tag)
  | addRestriction scope e before =>
    have h := hmade _ (keysAll_expression d scope e
      (if d.contains .whereClause then .andClause else .whereClause))
    simp only [inserted, apply, Draft.addRestriction]
    split_ifs at h ⊢ <;> exact h
  | extendClause group scope e =>
    simp only [inserted, apply, extendClause_value]
    split_ifs
    · refine hmade _ ?_
      rw [keysAll, Part.flattenAll_ofAtoms, Part.ofAtoms_keys]
    · exact ⟨List.nodup_nil, fun k hk => absurd hk List.not_mem_nil⟩

theorem suppliesAll_supplyFields (hd : Distinct d) (fields : List ColumnRef) :
    Draft.SuppliesAll fields d.nextKey (d.supplyFields fields).nextKey d.parts
      (d.supplyFields fields).parts :=
  Draft.suppliesAll_supplyAll fields hd.nodup hd.lt

theorem refills_supplyFields (hd : Distinct d) (fields : List ColumnRef) :
    Draft.Refills fields d.parts d.nextKey (d.supplyFields fields).nextKey d.sequence
      (d.supplyFields fields).sequence :=
  (suppliesAll_supplyFields hd fields).refills

theorem supplied_supplyFields (hd : Distinct d) (fields : List ColumnRef) :
    Supplied fields d (d.supplyFields fields) := by
  obtain ⟨kept, fresh, hold, hresult, hperm, -, -, hfresh, hgone⟩ := refills_supplyFields hd fields
  refine ⟨suppliesAll_supplyFields hd fields,
    fun p hp hkey => (hgone p hp).resolve_left fun hmem => ?_, fun p hp hkey => ?_⟩
  · exact hkey (Tree.mem_keys_of_mem (hresult.subset hmem))
  · refine hfresh p ((List.mem_append.1 (hperm.subset hp)).resolve_left fun hmem => ?_)
    exact hkey (Tree.mem_keys_of_mem (hold.subset hmem))

theorem changes_apply (hd : Distinct d) {edit : Edit} (hfit : edit.Fits d) :
    edit.Changes d (edit.apply d) := by
  cases edit with
  | remove k => exact changes_remove hd.nodup k
  | supplyFields fields => exact supplied_supplyFields hd fields
  | makeParts => exact Inserts.unchanged rfl
  | close k => exact Inserts.unchanged (Tree.sequence_update_close hd.nodup k)
  | closeSelect =>
    refine Inserts.unchanged (Part.sequenceAll_map (fun p => ?_) d.parts)
    split_ifs
    · exact p.sequence_close
    · rfl
  | add p => exact inserts_add d.toTree p
  | addBefore p tag => exact inserts_addBefore d.toTree p tag
  | addAfter p tag => exact inserts_addAfter d.toTree p tag
  | addAheadOf p anchor => exact inserts_addAheadOf d.toTree p anchor
  | addToLast p tag => exact inserts_addToLastWhere hd.nodup p _
  | addToLastWhere p anchor => exact inserts_addToLastWhere hd.nodup p anchor
  | push group p =>
    obtain ⟨g, hfind, hgroup⟩ := (Option.any_eq_true _ _).1 hfit.1
    exact inserts_update_find? hd.nodup hfind hgroup [p]
  | addText tag s => exact inserts_add d.toTree _
  | addList tag => exact inserts_add d.toTree _
  | insertSource tag entity tableAlias before =>
    cases tableAlias with
    | none => exact inserts_addAheadOf d.toTree _ before
    | some a => exact inserts_addAheadOf (d.setAlias entity a) _ before
  | addExpression scope e tag => exact inserts_add d.toTree _
  | nestExpression scope e tag anchor => exact inserts_addToLastWhere hd.nodup _ anchor
  | addRestriction scope e before =>
    change Inserts _ _ _ (d.addRestriction scope e before).value.sequence
    simp only [target?, inserted, Draft.addRestriction]
    split_ifs
    · exact inserts_addToLastWhere hd.nodup _ _
    · exact inserts_addAheadOf d.toTree _ before
  | extendClause group scope e =>
    change Inserts _ _ _ (d.extendClause group scope e).value.sequence
    rw [extendClause_value]
    simp only [target?, inserted]
    split_ifs with htarget
    · obtain ⟨g, hfind, hgroup⟩ := (Option.any_eq_true _ _).1 htarget
      exact inserts_update_find? hd.nodup hfind hgroup _
    · have hnone : (d.find? group).filter Part.isGroup = none :=
        Option.filter_eq_none_iff.2 fun g hg hgroup =>
          htarget ((Option.any_eq_true _ _).2 ⟨g, hg, hgroup⟩)
      rw [hnone]
      exact Inserts.unchanged rfl
  | addField f => exact inserts_addToLastWhere hd.nodup _ _

theorem changes_cases {edit : Edit} {d' : Draft} (h : edit.Changes d d') :
    Inserts (edit.target? d) (sequenceAll (edit.inserted d)) d.sequence d'.sequence ∨
      (∃ k, edit = remove k) ∨ ∃ fields, edit = supplyFields fields := by
  cases edit with
  | remove k => exact .inr (.inl ⟨k, rfl⟩)
  | supplyFields fields => exact .inr (.inr ⟨fields, rfl⟩)
  | _ => exact .inl h

theorem le_nextKey_apply (hd : Distinct d) (edit : Edit) : d.nextKey ≤ (edit.apply d).nextKey := by
  cases edit with
  | supplyFields fields =>
    obtain ⟨_, _, _, _, _, hlast, _⟩ := refills_supplyFields hd fields
    exact hlast ▸ Nat.le_add_right _ _
  | addRestriction scope e before =>
    simp only [apply, Draft.addRestriction]
    split_ifs <;> exact Nat.le_add_right _ _
  | extendClause group scope e =>
    simp only [apply, extendClause_value]
    split_ifs
    · exact Nat.le_add_right _ _
    · exact Nat.le_refl _
  | closeSelect => exact Nat.le_refl _
  | _ => exact Nat.le_add_right _ _

theorem Inserts.keeps {target : Option Part} {new old result : List Part}
    (h : Inserts target new old result) (hresult : (result.map Part.key).Nodup) :
    Part.Keeps old old result := by
  have hsub : old.Sublist result := by
    obtain ⟨l, r, rfl, rfl, -⟩ := h
    exact (List.sublist_append_left l _).append (.refl r)
  exact ⟨.refl _, hsub, fun p hp _ => hp, fun p hp hkey => Part.mem_of_key_mem hsub hresult hp hkey⟩

theorem Inserts.map_key_perm {target : Option Part} {new old result : List Part}
    (h : Inserts target new old result) :
    ∃ fresh, fresh.Sublist (new.map Part.key) ∧
      (result.map Part.key).Perm (old.map Part.key ++ fresh) := by
  obtain ⟨l, r, rfl, rfl, -⟩ := h
  refine ⟨(if target.any Part.isClosed then [] else new).map Part.key, ?_, ?_⟩
  · split_ifs
    · exact List.nil_sublist _
    · exact .refl _
  · simp only [List.map_append, List.append_assoc]
    exact (List.perm_append_comm).append_left _

theorem Distinct.of_perm {d' : Draft} (hd : Distinct d) {fresh : List Key}
    (hperm : d'.keys.Perm (d.keys ++ fresh)) (hnodup : fresh.Nodup)
    (hfresh : ∀ k ∈ fresh, k ∉ d.keys ∧ k < d'.nextKey) (hle : d.nextKey ≤ d'.nextKey) :
    Distinct d' where
  nodup := by
    rw [hperm.nodup_iff, List.nodup_append']
    exact ⟨hd.nodup, hnodup, fun k hk hmem => (hfresh k hmem).1 hk⟩
  lt k hk := by
    obtain hk | hk := List.mem_append.1 (hperm.subset hk)
    · exact Nat.lt_of_lt_of_le (hd.lt k hk) hle
    · exact (hfresh k hk).2

theorem exists_block_of_remove (h : (remove k).Changes d ((remove k).apply d)) :
    ∃ l m r, d.sequence = l ++ m ++ r ∧ ((remove k).apply d).sequence = l ++ r := by
  obtain ⟨habsent, hpresent⟩ := h
  by_cases hk : k ∈ d.keys
  · obtain ⟨p, hp, rfl⟩ := List.mem_map.1 hk
    cases hfind : d.find? p.key with
    | none => exact absurd (List.find?_eq_none.1 hfind p hp) (by simp)
    | some q =>
      obtain ⟨l, r, hsplit, hrest⟩ := hpresent q hfind
      exact ⟨l, q.sequence, r, hsplit, hrest⟩
  · exact ⟨d.sequence, [], [], by simp, by simp [habsent hk]⟩

theorem distinct_remove (hd : Distinct d) (k : Key) :
    Distinct ((remove k).apply d) ∧ ∃ kept, Part.Keeps kept d.sequence ((remove k).apply d).sequence := by
  obtain ⟨l, m, r, hsplit, hrest⟩ := exists_block_of_remove (changes_remove hd.nodup k)
  have hsub : ((remove k).apply d).sequence.Sublist d.sequence := by
    rw [hsplit, hrest]
    exact (List.sublist_append_left l m).append (.refl r)
  have hkeys : ((remove k).apply d).keys.Sublist d.keys := by
    rw [← Tree.map_key_sequence, ← Tree.map_key_sequence]
    exact hsub.map _
  have hnodup := Tree.map_key_sequence d.toTree ▸ hd.nodup
  exact ⟨⟨hd.nodup.sublist hkeys, fun k hk => hd.lt k (hkeys.subset hk)⟩, _, hsub, .refl _,
    fun p hp hkey => Part.mem_of_key_mem hsub hnodup hp hkey, fun p hp _ => hp⟩

theorem distinct_supplyFields (hd : Distinct d) (fields : List ColumnRef) :
    Distinct (d.supplyFields fields) ∧
      ∃ kept, Part.Keeps kept d.sequence (d.supplyFields fields).sequence := by
  obtain ⟨kept, fresh, hold, hresult, hperm, hlast, hfresh, -, -⟩ := refills_supplyFields hd fields
  have hkept : (kept.map Part.key).Sublist d.keys := by
    rw [← Tree.map_key_sequence]
    exact hold.map _
  have hnew : ∀ k ∈ fresh.map Part.key, k ∉ d.keys ∧ k < (d.supplyFields fields).nextKey := by
    intro k hk
    rw [hfresh] at hk
    obtain ⟨hle, hlt⟩ := List.mem_range'_1.1 hk
    exact ⟨fun hmem => Nat.not_lt.2 hle (hd.lt k hmem), hlast ▸ hlt⟩
  have hkeys : (d.supplyFields fields).keys.Perm (kept.map Part.key ++ fresh.map Part.key) := by
    rw [← Tree.map_key_sequence, ← List.map_append]
    exact hperm.map _
  refine ⟨⟨?_, fun k hk => ?_⟩, kept, hold, hresult, fun p hp hkey => ?_, fun p hp hkey => ?_⟩
  · rw [hkeys.nodup_iff, List.nodup_append']
    exact ⟨hd.nodup.sublist hkept, hfresh ▸ List.nodup_range',
      fun k hk hmem => (hnew k hmem).1 (hkept.subset hk)⟩
  · obtain hk | hk := List.mem_append.1 (hkeys.subset hk)
    · exact Nat.lt_of_lt_of_le (hd.lt k (hkept.subset hk)) (hlast ▸ Nat.le_add_right _ _)
    · exact (hnew k hk).2
  · rw [Tree.map_key_sequence] at hkey
    have hmem := (List.mem_append.1 (hkeys.subset hkey)).resolve_right fun hmem =>
      (hnew _ hmem).1 (Tree.mem_keys_of_mem hp)
    exact Part.mem_of_key_mem hold (Tree.map_key_sequence d.toTree ▸ hd.nodup) hp hmem
  · rw [Tree.map_key_sequence] at hkey
    exact (List.mem_append.1 (hperm.subset hp)).resolve_right fun hmem =>
      (hnew _ (List.mem_map_of_mem hmem)).1 hkey

theorem distinct_apply (hd : Distinct d) {edit : Edit} (hfit : edit.Fits d) :
    Distinct (edit.apply d) ∧ ∃ kept, Part.Keeps kept d.sequence (edit.apply d).sequence := by
  obtain h | ⟨k, rfl⟩ | ⟨fields, rfl⟩ := changes_cases (changes_apply hd hfit)
  · obtain ⟨fresh, hsub, hperm⟩ := h.map_key_perm
    rw [Tree.map_key_sequence, Tree.map_key_sequence] at hperm
    rw [Part.map_key_sequenceAll] at hsub
    obtain ⟨hnodup, hnew⟩ := inserted_fresh hd hfit
    have hd' := hd.of_perm hperm (hnodup.sublist hsub) (fun k hk => hnew k (hsub.subset hk))
      (le_nextKey_apply hd edit)
    exact ⟨hd', _, h.keeps (Tree.map_key_sequence _ ▸ hd'.nodup)⟩
  · exact distinct_remove hd k
  · exact distinct_supplyFields hd fields

theorem distinct_run (hd : Distinct d) {edits : List Edit} (hfit : FitAll d edits) :
    Distinct (run d edits) := by
  induction edits generalizing d with
  | nil => exact hd
  | cons edit edits ih =>
    exact ih (distinct_apply hd hfit.1).1 hfit.2

theorem fitAll_append {before after : List Edit} :
    FitAll d (before ++ after) ↔ FitAll d before ∧ FitAll (run d before) after := by
  induction before generalizing d with
  | nil => simp [FitAll, run]
  | cons edit before ih =>
    rw [List.cons_append, FitAll, FitAll, ih, and_assoc]
    rfl

/-- However many edits have been made to a tree that was empty, the keys of its parts differ. The
next edit changes the sequence of the parts in one place, or adds to each open select list what it
lacks, and the parts that are there before and after it stand in the same order. -/
theorem edits_keep_sequence {start : Draft} (hempty : start.parts = []) {before : List Edit}
    {edit : Edit} (hfit : FitAll start (before ++ [edit])) :
    (run start before).keys.Nodup ∧ (run start (before ++ [edit])).keys.Nodup ∧
      edit.Changes (run start before) (run start (before ++ [edit])) ∧
      ((run start before).sequence.filter fun p => p.key ∈ (run start (before ++ [edit])).keys) =
        (run start (before ++ [edit])).sequence.filter fun p =>
          p.key ∈ (run start before).keys := by
  obtain ⟨hbefore, hedit⟩ := fitAll_append.1 hfit
  have hstart : Distinct start := by
    constructor <;> simp [Tree.keys, hempty]
  have hd := distinct_run hstart hbefore
  obtain ⟨hd', kept, hkept⟩ := distinct_apply hd hedit.1
  have hrun : run start (before ++ [edit]) = edit.apply (run start before) := by
    rw [run, List.foldl_append]
    rfl
  have horder := hkept.filter_eq (Tree.map_key_sequence _ ▸ hd.nodup) (Tree.map_key_sequence _ ▸ hd'.nodup)
  simp only [Tree.map_key_sequence] at horder
  rw [hrun]
  exact ⟨hd.nodup, hd'.nodup, changes_apply hd hedit.1, horder⟩

def nested : List Edit :=
  [addList .select, makeParts 4,
    add (.clause 2 .whereClause none none [.text 3 .plain "Id = 1"]),
    addToLast (.clause 4 .andClause none none [.text 5 .plain "Name = 2"]) .whereClause,
    addField (.named "Id")]

/-- The condition is taken out again, or the select list is supplied with other columns. -/
theorem edits_keep_sequence_nested :
    let supply := supplyFields [.named "Name", .named "Email"]
    FitAll .empty (nested ++ [remove 4]) ∧ FitAll .empty (nested ++ [supply]) ∧
      (run .empty (nested ++ [remove 4])).keys.Nodup ∧ (run .empty (nested ++ [supply])).keys.Nodup ∧
      (remove 4).Changes (run .empty nested) (run .empty (nested ++ [remove 4])) ∧
      supply.Changes (run .empty nested) (run .empty (nested ++ [supply])) := by
  intro supply
  have hremove : FitAll .empty (nested ++ [remove 4]) := by decide
  have hsupply : FitAll .empty (nested ++ [supply]) := by decide
  obtain ⟨-, hremoved, hgone, -⟩ := edits_keep_sequence rfl hremove
  obtain ⟨-, hsupplied, hlists, -⟩ := edits_keep_sequence rfl hsupply
  exact ⟨hremove, hsupply, hremoved, hsupplied, hgone, hlists⟩

example : (run .empty nested).keys = [1, 6, 2, 3, 4, 5] := by decide

example : (run .empty (nested ++ [remove 4])).keys = [1, 6, 2, 3] := by decide

example : (run .empty (nested ++ [supplyFields [.named "Name", .named "Email"]])).keys =
    [1, 7, 8, 2, 3, 4, 5] := by decide

end SqlComposer.Edit
