import SqlComposer.Proofs.Outline.Query

/-!
# Clauses in order

The blocks of a query in the order in which they are written: the select list, the tables, the
restriction, the grouping and the ordering. Every change of an outline keeps this order.
-/
namespace SqlComposer

structure Orderly where
  columns : Listing
  table : Clause
  joins : List Clause := []
  restriction : Option Clause := none
  grouping : Option Listing := none
  ordering : Option Clause := none

namespace Orderly

def sources (o : Orderly) : List Block :=
  .listing o.columns :: .clause o.table :: o.joins.map .clause

def tail (o : Orderly) : List Block :=
  o.grouping.toList.map .listing ++ o.ordering.toList.map .clause

def blocks (o : Orderly) : List Block :=
  o.sources ++ (o.restriction.toList.map .clause ++ o.tail)

structure WellTagged (o : Orderly) : Prop where
  columns : o.columns.tag = .select
  table : o.table.tag = .fromClause
  joins : ∀ c ∈ o.joins, c.tag.isJoin = true
  restriction : ∀ c ∈ o.restriction, c.tag = .whereClause
  grouping : ∀ l ∈ o.grouping, l.tag = .groupBy
  ordering : ∀ c ∈ o.ordering, c.tag.startsOrder = true

variable {o : Orderly} {s : Outline}

theorem WellTagged.sources_tag (ho : o.WellTagged) :
    ∀ b ∈ o.sources, b.tag = .select ∨ b.tag = .fromClause ∨ b.tag.isJoin = true := by
  intro b hb
  simp only [sources, List.mem_cons, List.mem_map] at hb
  obtain rfl | rfl | ⟨c, hc, rfl⟩ := hb
  · exact .inl ho.columns
  · exact .inr (.inl ho.table)
  · exact .inr (.inr (ho.joins c hc))

theorem WellTagged.tail_tag (ho : o.WellTagged) :
    ∀ b ∈ o.tail, b.tag = .groupBy ∨ b.tag.startsOrder = true := by
  intro b hb
  simp only [tail, List.mem_append, List.mem_map, Option.mem_toList] at hb
  obtain ⟨l, hl, rfl⟩ | ⟨c, hc, rfl⟩ := hb
  · exact .inl (ho.grouping l hl)
  · exact .inr (ho.ordering c hc)

theorem WellTagged.sources_false (ho : o.WellTagged) {p : Tag → Bool}
    (hp : ∀ t, p t = true → t ≠ .select ∧ t ≠ .fromClause ∧ t.isJoin = false) :
    ∀ b ∈ o.sources, p b.tag = false := by
  intro b hb
  by_contra h
  obtain ⟨hselect, hfrom, hjoin⟩ := hp _ (by simpa using h)
  obtain htag | htag | htag := ho.sources_tag b hb
  · exact hselect htag
  · exact hfrom htag
  · rw [htag] at hjoin
    cases hjoin

theorem followsSources_apart (t : Tag) (ht : t.followsSources = true) :
    t ≠ .select ∧ t ≠ .fromClause ∧ t.isJoin = false := by
  cases t <;> simp_all [Tag.followsSources, Tag.followsWhere, Tag.isOrder, Tag.isJoin]

theorem WellTagged.tail_followsWhere (ho : o.WellTagged) :
    ∀ b ∈ o.tail, b.tag.followsWhere = true := by
  intro b hb
  obtain htag | htag := ho.tail_tag b hb
  · rw [htag]
    rfl
  · obtain htag | htag := Outline.startsOrder_iff.1 htag <;> rw [htag] <;> rfl

theorem WellTagged.behind_followsSources (ho : o.WellTagged) :
    ∀ b ∈ o.restriction.toList.map Block.clause ++ o.tail, b.tag.followsSources = true := by
  intro b hb
  obtain hb | hb := List.mem_append.1 hb
  · obtain ⟨c, hc, rfl⟩ := List.mem_map.1 hb
    have htag := ho.restriction c (Option.mem_toList.1 hc)
    rw [show (Block.clause c).tag = .whereClause from htag]
    rfl
  · rw [Tag.followsSources, ho.tail_followsWhere b hb, Bool.or_true]

theorem join_blocks (ho : o.WellTagged) (hs : s.blocks = o.blocks) {kind : Tag}
    (hkind : kind.frame? = none) (entity : String) (tableAlias : Option String)
    (atoms : List Atom) :
    (s.join kind hkind entity tableAlias atoms).blocks =
      blocks { o with joins := o.joins ++
        [{ key := s.nextKey, tag := kind, entity := some entity, tableAlias, atoms,
           opensNoList := hkind }] } := by
  rw [Outline.join, Outline.insert, Outline.setAlias_blocks, hs, blocks,
    insertAhead_append (ho.sources_false followsSources_apart)
      fun b hb => ho.behind_followsSources b (List.mem_of_mem_head? hb)]
  simp [blocks, sources, tail]

theorem nest_blocks (anchor : Block → Bool) {l r : List Block} {c : Clause}
    (hs : s.blocks = l ++ .clause c :: r) (hc : anchor (.clause c) = true)
    (hr : ∀ b ∈ r, anchor b = false) (joint : Joint) (atoms : List Atom) :
    (s.nest anchor joint atoms).blocks =
      l ++ .clause (c.nest ⟨s.nextKey, joint, atoms⟩) :: r := by
  have hany : s.blocks.any anchor = true := by simp [hs, hc]
  rw [Outline.nest, if_pos hany]
  simp only [hs]
  rw [modifyLast_append_cons hc hr]
  rfl

theorem enter_split {l r : List Block} {x : Listing} {tag : Tag}
    (hs : s.blocks = l ++ .listing x :: r) (hx : x.tag = tag)
    (hr : ∀ b ∈ r, (b.tag == tag) = false) (e : Key → Entry) :
    (s.enter tag e).blocks = l ++ .listing (x.enter (e s.nextKey)) :: r := by
  have hself : ((Block.listing x).tag == tag) = true := beq_iff_eq.2 hx
  rw [Outline.enter, hs]
  exact modifyLast_append_cons (p := fun b : Block => b.tag == tag) hself hr

theorem whereClause_apart (t : Tag) (ht : (t == .whereClause) = true) :
    t ≠ .select ∧ t ≠ .fromClause ∧ t.isJoin = false := by
  rw [beq_iff_eq.1 ht]
  exact ⟨nofun, nofun, rfl⟩

theorem WellTagged.tail_ne_where (ho : o.WellTagged) :
    ∀ b ∈ o.tail, (b.tag == .whereClause) = false := by
  intro b hb
  have hfollows := ho.tail_followsWhere b hb
  refine beq_eq_false_iff_ne.2 fun htag => ?_
  rw [htag] at hfollows
  cases hfollows

theorem restrict_blocks_none (ho : o.WellTagged) (hs : s.blocks = o.blocks)
    (hnone : o.restriction = none) (atoms : List Atom) :
    (s.restrict Tag.followsWhere atoms).blocks =
      blocks { o with
        restriction := some ⟨s.nextKey, .whereClause, none, none, atoms, [], rfl⟩ } := by
  have hblocks : s.blocks = o.sources ++ o.tail := by
    rw [hs, blocks, hnone]
    rfl
  have hany : ¬(s.blocks.any fun b => b.tag == .whereClause) = true := by
    rw [hblocks, List.any_append, List.any_eq_false.2 fun b hb => by
      simp [ho.sources_false whereClause_apart b hb], List.any_eq_false.2 fun b hb => by
      simp [ho.tail_ne_where b hb]]
    simp
  rw [Outline.restrict, if_neg hany, Outline.insert, hblocks, insertAhead_append
    (ho.sources_false fun t ht => followsSources_apart t (by rw [Tag.followsSources, ht, Bool.or_true]))
    fun b hb => ho.tail_followsWhere b (List.mem_of_mem_head? hb)]
  rfl

theorem blocks_of_restriction {c : Clause} (hsome : o.restriction = some c) :
    o.blocks = o.sources ++ .clause c :: o.tail := by
  rw [blocks, hsome]
  rfl

theorem restrict_blocks_some (ho : o.WellTagged) (hs : s.blocks = o.blocks) {c : Clause}
    (hsome : o.restriction = some c) (before : Tag → Bool) (atoms : List Atom) :
    (s.restrict before atoms).blocks =
      blocks { o with restriction := some (c.nest ⟨s.nextKey, .and, atoms⟩) } := by
  have hblocks := hs.trans (blocks_of_restriction hsome)
  have hc : ((Block.clause c).tag == .whereClause) = true := by
    rw [beq_iff_eq]
    exact ho.restriction c hsome
  have hany : (s.blocks.any fun b => b.tag == .whereClause) = true := by
    simp [hblocks, hc]
  rw [Outline.restrict, if_pos hany, nest_blocks _ hblocks hc ho.tail_ne_where]
  rfl

theorem head?_partsOf (ho : o.WellTagged) (hs : s.blocks = o.blocks) {c : Clause}
    (hsome : o.restriction = some c) :
    (s.draft.partsOf .whereClause).head?.map Part.key = some c.key := by
  have hblocks := hs.trans (blocks_of_restriction hsome)
  have hsources : (o.sources.map Block.part).filter (fun p => p.tag == .whereClause) = [] := by
    refine List.filter_eq_nil_iff.2 fun p hp => ?_
    obtain ⟨b, hb, rfl⟩ := List.mem_map.1 hp
    simp [ho.sources_false whereClause_apart b hb]
  have hc : (Block.clause c).part.tag = .whereClause := ho.restriction c hsome
  rw [Tree.partsOf, Outline.draft, hblocks, List.map_append, List.filter_append, hsources,
    List.map_cons, List.filter_cons_of_pos (by simp [hc])]
  rfl

theorem filter_predicates (ho : o.WellTagged) :
    ((o.blocks.map Block.part).filter fun p => p.tag.isJoin || p.tag == .whereClause) =
      (o.joins ++ o.restriction.toList).map fun c => (Block.clause c).part := by
  have hjoins : (o.joins.map fun c => (Block.clause c).part).filter
      (fun p => p.tag.isJoin || p.tag == .whereClause) =
      o.joins.map fun c => (Block.clause c).part := by
    refine List.filter_eq_self.2 fun p hp => ?_
    obtain ⟨c, hc, rfl⟩ := List.mem_map.1 hp
    simp [Block.tag, ho.joins c hc]
  have hrestriction : (o.restriction.toList.map fun c => (Block.clause c).part).filter
      (fun p => p.tag.isJoin || p.tag == .whereClause) =
      o.restriction.toList.map fun c => (Block.clause c).part := by
    refine List.filter_eq_self.2 fun p hp => ?_
    obtain ⟨c, hc, rfl⟩ := List.mem_map.1 hp
    simp [Block.tag, ho.restriction c (Option.mem_toList.1 hc)]
  have htail : (o.tail.map Block.part).filter
      (fun p => p.tag.isJoin || p.tag == .whereClause) = [] := by
    refine List.filter_eq_nil_iff.2 fun p hp => ?_
    obtain ⟨b, hb, rfl⟩ := List.mem_map.1 hp
    rw [Block.part_tag]
    obtain htag | htag := ho.tail_tag b hb
    · simp [htag, Tag.isJoin]
    · obtain htag | htag := Outline.startsOrder_iff.1 htag <;> simp [htag, Tag.isJoin]
  have hcolumns : (Block.listing o.columns).tag = .select := ho.columns
  have htable : (Block.clause o.table).tag = .fromClause := ho.table
  simp only [blocks, sources, List.map_append, List.map_cons, List.filter_append, htail,
    List.map_map, Function.comp_def, List.append_nil, hrestriction]
  rw [List.filter_cons_of_neg (by simp [hcolumns, Tag.isJoin]),
    List.filter_cons_of_neg (by simp [htable, Tag.isJoin]), hjoins]

theorem nest_blocks_restriction (hkeyed : s.Keyed) (hs : s.blocks = o.blocks) {c : Clause}
    (hsome : o.restriction = some c) (joint : Joint) (atoms : List Atom) :
    (s.nest (fun b => some b.key == some c.key) joint atoms).blocks =
      blocks { o with restriction := some (c.nest ⟨s.nextKey, joint, atoms⟩) } := by
  have hblocks := hs.trans (blocks_of_restriction hsome)
  have hself : (some (Block.clause c).key == some c.key) = true := beq_self_eq_true _
  rw [nest_blocks (fun b => some b.key == some c.key) hblocks hself
    (hkeyed.key_ne_of_append hblocks)]
  rfl

theorem blocks_of_joins {front : List Clause} {c : Clause} (hjoins : o.joins = front ++ [c]) :
    o.blocks = (.listing o.columns :: .clause o.table :: front.map Block.clause) ++
      Block.clause c :: (o.restriction.toList.map Block.clause ++ o.tail) := by
  rw [blocks, sources, hjoins, List.map_append, ← List.cons_append, ← List.cons_append,
    List.append_assoc]
  rfl

theorem nest_blocks_join (hkeyed : s.Keyed) (hs : s.blocks = o.blocks) {c : Clause}
    {front : List Clause} (hjoins : o.joins = front ++ [c]) (joint : Joint) (atoms : List Atom) :
    (s.nest (fun b => some b.key == some c.key) joint atoms).blocks =
      blocks { o with joins := front ++ [c.nest ⟨s.nextKey, joint, atoms⟩] } := by
  have hblocks := hs.trans (blocks_of_joins hjoins)
  have hself : (some (Block.clause c).key == some c.key) = true := beq_self_eq_true _
  rw [nest_blocks (fun b => some b.key == some c.key) hblocks hself
    (hkeyed.key_ne_of_append hblocks)]
  exact (blocks_of_joins (o := { o with joins := front ++ [_] }) rfl).symm

def front (o : Orderly) : List Block :=
  o.sources ++ o.restriction.toList.map .clause

theorem blocks_eq_front (o : Orderly) :
    o.blocks = o.front ++ o.grouping.toList.map .listing ++ o.ordering.toList.map .clause := by
  rw [blocks, front, tail, List.append_assoc, List.append_assoc]

theorem WellTagged.front_false (ho : o.WellTagged) {p : Tag → Bool}
    (hp : ∀ t, p t = true → t ≠ .select ∧ t ≠ .fromClause ∧ t.isJoin = false)
    (hwhere : p .whereClause = false) : ∀ b ∈ o.front, p b.tag = false := by
  intro b hb
  obtain hb | hb := List.mem_append.1 hb
  · exact ho.sources_false hp b hb
  · obtain ⟨c, hc, rfl⟩ := List.mem_map.1 hb
    rwa [show (Block.clause c).tag = .whereClause from ho.restriction c (Option.mem_toList.1 hc)]

theorem startsOrder_apart (t : Tag) (ht : t.startsOrder = true) :
    t ≠ .select ∧ t ≠ .fromClause ∧ t.isJoin = false := by
  obtain rfl | rfl := Outline.startsOrder_iff.1 ht <;> exact ⟨nofun, nofun, rfl⟩

theorem isOrder_apart (t : Tag) (ht : t.isOrder = true) :
    t ≠ .select ∧ t ≠ .fromClause ∧ t.isJoin = false := by
  cases t <;> simp_all [Tag.isOrder, Tag.isJoin]

theorem groupBy_apart (t : Tag) (ht : (t == .groupBy) = true) :
    t ≠ .select ∧ t ≠ .fromClause ∧ t.isJoin = false := by
  rw [beq_iff_eq.1 ht]
  exact ⟨nofun, nofun, rfl⟩

theorem nest_blocks_order (ho : o.WellTagged) (hs : s.blocks = o.blocks) {c : Clause}
    (hsome : o.ordering = some c) (joint : Joint) (atoms : List Atom) :
    (s.nest (fun b => b.tag.startsOrder) joint atoms).blocks =
      blocks { o with ordering := some (c.nest ⟨s.nextKey, joint, atoms⟩) } := by
  have hblocks : s.blocks =
      o.front ++ o.grouping.toList.map Block.listing ++ [Block.clause c] := by
    rw [hs, blocks_eq_front, hsome]
    rfl
  rw [nest_blocks _ hblocks (ho.ordering c hsome) (List.forall_mem_nil _), blocks_eq_front]
  rfl

theorem order_blocks_none (ho : o.WellTagged) (hs : s.blocks = o.blocks)
    (hnone : o.ordering = none) {first : Tag} (hfirst : first.frame? = none) (next : Joint)
    (atoms : List Atom) :
    (s.order first hfirst next atoms).blocks =
      blocks { o with ordering := some ⟨s.nextKey, first, none, none, atoms, [], hfirst⟩ } := by
  have hblocks : s.blocks = o.front ++ o.grouping.toList.map Block.listing := by
    rw [hs, blocks_eq_front, hnone]
    exact List.append_nil _
  have hany : ¬(s.blocks.any fun b => b.tag.startsOrder) = true := by
    simp only [hblocks, List.any_eq_true, List.mem_append, not_exists, not_and]
    rintro b (hb | hb)
    · simp [ho.front_false startsOrder_apart rfl b hb]
    · obtain ⟨l, hl, rfl⟩ := List.mem_map.1 hb
      rw [show (Block.listing l).tag = .groupBy from ho.grouping l (Option.mem_toList.1 hl)]
      exact Bool.false_ne_true
  rw [Outline.order, if_neg hany, Outline.add, hblocks]
  rw [blocks_eq_front]
  rfl

theorem order_blocks_some (ho : o.WellTagged) (hs : s.blocks = o.blocks) {c : Clause}
    (hsome : o.ordering = some c) {first : Tag} (hfirst : first.frame? = none) (next : Joint)
    (atoms : List Atom) :
    (s.order first hfirst next atoms).blocks =
      blocks { o with ordering := some (c.nest ⟨s.nextKey, next, atoms⟩) } := by
  have hc : (Block.clause c).tag.startsOrder = true := ho.ordering c hsome
  have hany : (s.blocks.any fun b => b.tag.startsOrder) = true := by
    simp [hs, blocks, tail, hsome, hc]
  rw [Outline.order, if_pos hany, nest_blocks_order ho hs hsome]

theorem WellTagged.ordering_tag (ho : o.WellTagged) :
    ∀ b ∈ o.ordering.toList.map Block.clause, b.tag = .orderBy ∨ b.tag = .orderByDesc := by
  intro b hb
  obtain ⟨c, hc, rfl⟩ := List.mem_map.1 hb
  exact Outline.startsOrder_iff.1 (ho.ordering c (Option.mem_toList.1 hc))

theorem WellTagged.ordering_isOrder (ho : o.WellTagged) :
    ∀ b ∈ o.ordering.toList.map Block.clause, b.tag.isOrder = true := by
  intro b hb
  obtain h | h := ho.ordering_tag b hb <;> rw [h] <;> rfl

theorem WellTagged.ordering_ne_groupBy (ho : o.WellTagged) :
    ∀ b ∈ o.ordering.toList.map Block.clause, (b.tag == .groupBy) = false := by
  intro b hb
  obtain h | h := ho.ordering_tag b hb <;> rw [h] <;> rfl

theorem blocks_of_grouping {l : Listing} (hsome : o.grouping = some l) :
    o.blocks = o.front ++ Block.listing l :: o.ordering.toList.map Block.clause := by
  rw [blocks_eq_front, hsome, List.append_assoc]
  rfl

theorem group_blocks (ho : o.WellTagged) (hs : s.blocks = o.blocks) (e : Key → Entry) :
    ∃ l : Listing, l.tag = .groupBy ∧
      (s.openGrouping.enter .groupBy e).blocks = blocks { o with grouping := some l } := by
  have hopen : ∃ l : Listing, l.tag = .groupBy ∧
      s.openGrouping.blocks = blocks { o with grouping := some l } := by
    rw [Outline.openGrouping]
    cases hgrouping : o.grouping with
    | some l =>
      have htag := ho.grouping l hgrouping
      have hany : (s.blocks.any fun b => b.tag == .groupBy) = true := by
        simp [hs, blocks, tail, hgrouping, Block.tag, htag]
      exact ⟨l, htag, by rw [if_pos hany, hs, ← hgrouping]⟩
    | none =>
      have hblocks : s.blocks = o.front ++ o.ordering.toList.map Block.clause := by
        rw [hs, blocks_eq_front, hgrouping, Option.toList_none, List.map_nil, List.append_nil]
      have hany : ¬(s.blocks.any fun b => b.tag == .groupBy) = true := by
        simp only [hblocks, List.any_eq_true, List.mem_append, not_exists, not_and]
        rintro b (hb | hb)
        · simp [ho.front_false groupBy_apart rfl b hb]
        · simp [ho.ordering_ne_groupBy b hb]
      refine ⟨⟨s.nextKey, .groupBy, [], false, rfl⟩, rfl, ?_⟩
      rw [if_neg hany, Outline.insert, hblocks, insertAhead_append
        (ho.front_false isOrder_apart rfl)
        fun b hb => ho.ordering_isOrder b (List.mem_of_mem_head? hb)]
      exact (blocks_of_grouping (o := { o with grouping := some _ }) rfl).symm
  obtain ⟨l, htag, hblocks⟩ := hopen
  have hsplit : s.openGrouping.blocks =
      o.front ++ Block.listing l :: o.ordering.toList.map Block.clause :=
    hblocks.trans (blocks_of_grouping (o := { o with grouping := some l }) rfl)
  refine ⟨l.enter (e s.openGrouping.nextKey), htag, ?_⟩
  rw [enter_split hsplit htag ho.ordering_ne_groupBy]
  exact (blocks_of_grouping (o := { o with grouping := some _ }) rfl).symm

def rest (o : Orderly) : List Block :=
  .clause o.table :: (o.joins.map .clause ++ (o.restriction.toList.map .clause ++ o.tail))

theorem WellTagged.rest_ne_select (ho : o.WellTagged) :
    ∀ b ∈ o.rest, (b.tag == .select) = false := by
  intro b hb
  simp only [rest, List.mem_cons, List.mem_append, List.mem_map, Option.mem_toList] at hb
  obtain rfl | ⟨c, hc, rfl⟩ | ⟨c, hc, rfl⟩ | hb := hb
  · simp [Block.tag, ho.table]
  · have hjoin := ho.joins c hc
    cases htag : c.tag <;> simp_all [Block.tag, Tag.isJoin]
  · simp [Block.tag, ho.restriction c hc]
  · obtain h | h := ho.tail_tag b hb
    · rw [h]
      rfl
    · obtain h | h := Outline.startsOrder_iff.1 h <;> rw [h] <;> rfl

theorem enter_blocks (ho : o.WellTagged) (hs : s.blocks = o.blocks) (e : Key → Entry) :
    (s.enter .select e).blocks = blocks { o with columns := o.columns.enter (e s.nextKey) } :=
  enter_split (l := []) (r := o.rest) hs ho.columns ho.rest_ne_select e

theorem supply_blocks (hs : s.blocks = o.blocks) (fields : List ColumnRef) :
    ∃ l : Listing, l.tag = o.columns.tag ∧
      (s.supply fields).blocks = blocks { o with columns := l } := by
  rw [Outline.supply_eq hs]
  by_cases hclosed : o.columns.isClosed = true
  · exact ⟨o.columns, rfl, by rw [if_pos hclosed, hs]⟩
  · exact ⟨o.columns.supplied s.nextKey fields, rfl, by rw [if_neg hclosed]; rfl⟩

theorem closeSelect_blocks (ho : o.WellTagged) (hs : s.blocks = o.blocks) :
    s.closeSelect.blocks = blocks { o with columns := { o.columns with isClosed := true } } := by
  have hl : ((Block.listing o.columns).tag == .select) = true := beq_iff_eq.2 ho.columns
  have hrest : o.rest.map (fun b => if b.tag == .select then b.close else b) = o.rest := by
    refine List.map_congr_left (fun b hb => ?_) |>.trans o.rest.map_id
    rw [ho.rest_ne_select b hb]
    rfl
  have hsplit : s.blocks = .listing o.columns :: o.rest := hs
  rw [Outline.closeSelect, hsplit, List.map_cons, hrest, if_pos hl]
  rfl

end Orderly

end SqlComposer
