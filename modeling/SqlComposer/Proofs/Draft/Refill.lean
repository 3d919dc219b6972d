import SqlComposer.Proofs.Supply
import SqlComposer.Proofs.Tree.Sequence

/-!
# The sequence of supplied select lists

Supplying the open select lists takes columns away that nobody asked for and adds requested ones.
Everything else stays, in its order.
-/
namespace SqlComposer.Draft

open SqlComposer.Part (keysAll sequenceAll)

variable {fields : List ColumnRef} {first last : Key} {p p' : Part} {ps ps' : List Part}

/-- A select list that is not closed: a group of any shape with the tag of one. -/
structure IsOpenSelect (p : Part) : Prop where
  tag : p.tag = .select
  isGroup : p.isGroup = true
  isOpen : p.isClosed = false

/-- What supplying makes of a part, and how far it takes the keys. -/
inductive Supplies (fields : List ColumnRef) : Key → Key → Part → Part → Prop where
  | list {h : Head} {shape : Shape} {children : List Part} {key : Key} {added : List ColumnRef} :
      h.tag = .select → unmet (children.filterMap Part.field?) fields = added →
      Supplies fields key (key + added.length) (.group h shape children false)
        (.group h shape (children.filter (stays fields) ++ columns key added) false)
  | other {key : Key} {p : Part} : ¬IsOpenSelect p → Supplies fields key key p p

/-- Every part of a sequence is supplied in its place. The keys go on from list to list. -/
inductive SuppliesAll (fields : List ColumnRef) : Key → Key → List Part → List Part → Prop where
  | nil {key : Key} : SuppliesAll fields key key [] []
  | cons {first between last : Key} {p p' : Part} {ps ps' : List Part} :
      Supplies fields first between p p' → SuppliesAll fields between last ps ps' →
      SuppliesAll fields first last (p :: ps) (p' :: ps')

theorem suppliesAll_supplyAll (fields : List ColumnRef) {key : Key} (hkeys : (keysAll ps).Nodup)
    (hlt : ∀ k ∈ keysAll ps, k < key) :
    SuppliesAll fields key (supplyAll fields ps key).2 ps (supplyAll fields ps key).1 := by
  induction ps generalizing key with
  | nil => exact .nil
  | cons p ps ih =>
    rw [Part.keysAll_cons, List.nodup_append'] at hkeys
    simp only [Part.keysAll_cons, List.mem_append, or_imp, forall_and] at hlt
    have hrest := ih hkeys.2.1 hlt.2
    cases p with
    | leaf h content => exact .cons (.other fun hp => Bool.false_ne_true hp.isGroup) hrest
    | group h shape cs isClosed =>
      cases isClosed with
      | true => exact .cons (.other fun hp => Bool.false_ne_true hp.isOpen.symm) hrest
      | false =>
        rw [supplyAll]
        by_cases htag : h.tag = .select
        · have hnodup := hkeys.1
          have hold := hlt.1
          rw [Part.keys_eq, List.nodup_cons] at hnodup
          rw [Part.keys_eq, List.forall_mem_cons] at hold
          have hsub := Part.keys_sublist_keysAll cs
          have hchildren : ∀ c ∈ cs, c.key < key := fun c hc =>
            hold.2 _ (hsub.subset (List.mem_map_of_mem hc))
          simp only [if_pos htag]
          rw [supplied_eq fields (hnodup.2.sublist hsub) hchildren]
          -- the lists behind this one start with the keys that it left
          refine .cons (.list htag rfl) (ih hkeys.2.1 fun k hk => ?_)
          exact Nat.lt_of_lt_of_le (hlt.2 k hk) (Nat.le_add_right _ _)
        · simp only [if_neg htag]
          exact .cons (.other fun hp => htag hp.tag) hrest

def Unasked (fields : List ColumnRef) (ps : List Part) (p : Part) : Prop :=
  ∃ list ∈ ps, list.tag = .select ∧ list.isClosed = false ∧ p ∈ list.children ∧
    stays fields p = false

/-- Of the sequence `old` of the parts `ps` some columns go and the rest stays in order. What is new
in `result` are requested columns with the keys from `first` up to `last`. -/
def Refills (fields : List ColumnRef) (ps : List Part) (first last : Key) (old result : List Part) :
    Prop :=
  ∃ kept fresh, kept.Sublist old ∧ kept.Sublist result ∧ result.Perm (kept ++ fresh) ∧
    last = first + fresh.length ∧ fresh.map Part.key = List.range' first fresh.length ∧
    (∀ p ∈ fresh, ∃ key, ∃ f ∈ fields, p = .field key f) ∧ ∀ p ∈ old, p ∈ kept ∨ Unasked fields ps p

theorem Refills.refl (fields : List ColumnRef) (ps : List Part) (key : Key) (old : List Part) :
    Refills fields ps key key old old :=
  ⟨old, [], .refl _, .refl _, by rw [List.append_nil], rfl, rfl,
    fun p hp => absurd hp List.not_mem_nil, fun p hp => .inl hp⟩

theorem Refills.append {fields : List ColumnRef} {ps qs : List Part} {first middle last : Key}
    {old old' result result' : List Part} (h : Refills fields ps first middle old result)
    (h' : Refills fields qs middle last old' result') :
    Refills fields (ps ++ qs) first last (old ++ old') (result ++ result') := by
  obtain ⟨kept, fresh, hold, hresult, hperm, rfl, hkeys, hfresh, hgone⟩ := h
  obtain ⟨kept', fresh', hold', hresult', hperm', rfl, hkeys', hfresh', hgone'⟩ := h'
  refine ⟨kept ++ kept', fresh ++ fresh', hold.append hold', hresult.append hresult', ?_,
    ?_, ?_, ?_, ?_⟩
  · refine (hperm.append hperm').trans ?_
    simp only [List.append_assoc]
    exact ((List.perm_append_comm_assoc fresh kept' fresh')).append_left kept
  · rw [List.length_append, Nat.add_assoc]
  · rw [List.map_append, hkeys, hkeys', List.range'_append_1, List.length_append]
  · exact fun p hp => (List.mem_append.1 hp).elim (hfresh p) (hfresh' p)
  · have hweaken {rs : List Part} (hsub : rs ⊆ ps ++ qs) {p : Part} (hp : Unasked fields rs p) :
        Unasked fields (ps ++ qs) p := by
      obtain ⟨list, hlist, hp⟩ := hp
      exact ⟨list, hsub hlist, hp⟩
    intro p hp
    obtain hp | hp := List.mem_append.1 hp
    · exact (hgone p hp).imp (List.mem_append_left _) (hweaken (List.subset_append_left _ _))
    · exact (hgone' p hp).imp (List.mem_append_right _) (hweaken (List.subset_append_right _ _))

theorem mem_sequenceAll_filter_stays (fields : List ColumnRef) {children : List Part} {p : Part}
    (hp : p ∈ sequenceAll children) :
    p ∈ sequenceAll (children.filter (stays fields)) ∨ p ∈ children ∧ stays fields p = false := by
  obtain ⟨q, hq, rfl⟩ := List.mem_map.1 hp
  rw [Part.flattenAll_eq] at hq
  obtain ⟨child, hchild, hq⟩ := List.mem_flatMap.1 hq
  cases hstays : stays fields child with
  | true =>
    refine .inl (List.mem_map_of_mem ?_)
    rw [Part.flattenAll_eq]
    exact List.mem_flatMap.2 ⟨child, List.mem_filter.2 ⟨hchild, hstays⟩, hq⟩
  | false =>
    cases child with
    | group => cases hstays
    | leaf head content =>
      obtain rfl := List.mem_singleton.1 hq
      exact .inr ⟨hchild, hstays⟩

theorem Supplies.refills (h : Supplies fields first last p p') :
    Refills fields [p] first last (sequenceAll [p]) (sequenceAll [p']) := by
  cases h with
  | other => exact Refills.refl _ _ _ _
  | @list h shape children _ added htag hadded =>
    have hold : sequenceAll [.group h shape children false] =
        .group h shape [] false :: sequenceAll children := by
      rw [Part.sequenceAll_cons, Part.sequence_eq]
      simp [Part.bare, Part.children]
    have hresult : sequenceAll [.group h shape
          (children.filter (stays fields) ++ columns first added) false] =
        .group h shape [] false :: sequenceAll (children.filter (stays fields)) ++
          columns first added := by
      rw [Part.sequenceAll_cons, Part.sequence_eq, Part.children, Part.sequenceAll_append,
        columns, Part.sequenceAll_ofAtoms]
      simp [Part.bare]
    have hkept := Part.sequenceAll_sublist (List.filter_sublist (l := children) (p := stays fields))
    have hlength : (columns first added).length = added.length := by
      rw [← List.length_map (f := Part.key), columns_keys, List.length_range']
    rw [hold, hresult]
    refine ⟨_, _, hkept.cons_cons _, List.sublist_append_left _ _, .refl _, ?_, ?_, ?_, ?_⟩
    · rw [hlength]
    · rw [hlength, columns_keys]
    · intro p hp
      obtain ⟨k, f, hf, rfl⟩ := exists_field_of_mem_columns hp
      exact ⟨k, f, mem_of_mem_unmet (hadded ▸ hf), rfl⟩
    · intro p hp
      obtain rfl | hp := List.mem_cons.1 hp
      · exact .inl List.mem_cons_self
      · obtain hp | ⟨hp, hgone⟩ := mem_sequenceAll_filter_stays fields hp
        · exact .inl (List.mem_cons_of_mem _ hp)
        · exact .inr ⟨_, List.mem_singleton_self _, htag, rfl, hp, hgone⟩

theorem SuppliesAll.refills (h : SuppliesAll fields first last ps ps') :
    Refills fields ps first last (sequenceAll ps) (sequenceAll ps') := by
  induction h with
  | nil => exact Refills.refl _ _ _ _
  | cons hp _ ih =>
    have h := hp.refills.append ih
    rwa [← Part.sequenceAll_append, ← Part.sequenceAll_append] at h

end SqlComposer.Draft
