import SqlComposer.Proofs.Outline.Insertion
import SqlComposer.Statement.Select

/-!
# Outlines of queries

The outline of a query starts with its select list and its first table. Joins, restrictions,
groupings and orderings each change it in one place.
-/
namespace SqlComposer

namespace Entry

def columns (key : Key) : List ColumnRef → List Entry
  | [] => []
  | f :: fields => .column key f :: columns (key + 1) fields

theorem map_part_columns (key : Key) (fields : List ColumnRef) :
    (columns key fields).map part = Draft.columns key fields := by
  induction fields generalizing key with
  | nil => rfl
  | cons f fields ih =>
    rw [columns, List.map_cons, ih]
    rfl

theorem map_key_columns (key : Key) (fields : List ColumnRef) :
    (columns key fields).map Entry.key = List.range' key fields.length := by
  rw [← Draft.columns_keys, ← map_part_columns, List.map_map]
  exact List.map_congr_left fun e _ => e.part_key.symm

theorem eq_column_of_mem {key : Key} {fields : List ColumnRef} {e : Entry}
    (he : e ∈ columns key fields) : ∃ k, ∃ r ∈ fields, e = .column k r := by
  induction fields generalizing key with
  | nil => cases he
  | cons r fields ih =>
    obtain rfl | he := List.mem_cons.1 he
    · exact ⟨key, r, List.mem_cons_self, rfl⟩
    · obtain ⟨k, r', hr', rfl⟩ := ih he
      exact ⟨k, r', List.mem_cons_of_mem _ hr', rfl⟩

end Entry

namespace Listing

def unmet (l : Listing) (fields : List ColumnRef) : List ColumnRef :=
  Draft.unmet (l.entries.filterMap fun e => e.part.field?) fields

def supplied (l : Listing) (key : Key) (fields : List ColumnRef) : Listing :=
  { l with
    entries := (l.entries.filter fun e => Draft.stays fields e.part) ++
      Entry.columns key (l.unmet fields) }

end Listing

namespace Block

def close : Block → Block
  | .listing l => .listing { l with isClosed := true }
  | b => b

@[simp] theorem close_tag (b : Block) : b.close.tag = b.tag := by
  cases b <;> rfl

@[simp] theorem close_keys (b : Block) : b.close.keys = b.keys := by
  cases b with
  | listing l => rw [close, keys_listing, keys_listing]
  | text | clause => rfl

theorem part_close {b : Block} (hb : b.isListing) : b.close.part = b.part.close := by
  cases b with
  | listing => rfl
  | text | clause => cases hb

end Block

namespace Outline

/-- The select list first, then the first table, and no other such block. -/
def Headed (s : Outline) : Prop :=
  ∃ tags, s.blocks.map Block.tag = .select :: .fromClause :: tags ∧
    .select ∉ tags ∧ .fromClause ∉ tags

def join (s : Outline) (kind : Tag) (hkind : kind.frame? = none) (entity : String)
    (tableAlias : Option String) (atoms : List Atom) : Outline :=
  (s.setAlias entity tableAlias).insert
    (.clause
      { key := s.nextKey, tag := kind, entity := some entity, tableAlias, atoms,
        opensNoList := hkind })
    Tag.followsSources (atoms.length + 1)

def order (s : Outline) (first : Tag) (hfirst : first.frame? = none) (next : Joint)
    (atoms : List Atom) : Outline :=
  if s.blocks.any fun b => b.tag.startsOrder then
    s.nest (fun b => b.tag.startsOrder) next atoms
  else
    s.add (.clause { key := s.nextKey, tag := first, atoms, opensNoList := hfirst })
      (atoms.length + 1)

def openGrouping (s : Outline) : Outline :=
  if s.blocks.any fun b => b.tag == .groupBy then s
  else s.insert (.listing { key := s.nextKey, tag := .groupBy }) Tag.isOrder 1

def supply (s : Outline) (fields : List ColumnRef) : Outline :=
  match s.blocks with
  | .listing l :: rest =>
    if l.isClosed then s
    else
      { s with
        blocks := .listing (l.supplied s.nextKey fields) :: rest
        nextKey := s.nextKey + (l.unmet fields).length }
  | _ => s

def closeSelect (s : Outline) : Outline :=
  { s with blocks := s.blocks.map fun b => if b.tag == .select then b.close else b }

variable {s : Outline}

theorem Headed.blocks (hs : s.Headed) :
    ∃ l c rest, s.blocks = .listing l :: .clause c :: rest ∧ l.tag = .select ∧
      c.tag = .fromClause ∧ ∀ b ∈ rest, b.tag ≠ .select ∧ b.tag ≠ .fromClause := by
  obtain ⟨tags, htags, hselect, hfrom⟩ := hs
  match hblocks : s.blocks with
  | [] | [b] => simp [hblocks] at htags
  | b :: b' :: rest =>
    rw [hblocks, List.map_cons, List.map_cons] at htags
    obtain ⟨hb, htags⟩ := List.cons.inj htags
    obtain ⟨hb', rfl⟩ := List.cons.inj htags
    have hlisting := Block.isListing_of_frame? (b := b) (by rw [hb]; rfl)
    have hclause := Block.isClause_of_frame? (b := b') (by rw [hb']; rfl)
      fun v => by rw [hb']; cases v <;> decide
    cases b with
    | text | clause => cases hlisting
    | listing l =>
      cases b' with
      | text | listing => cases hclause
      | clause c =>
        refine ⟨l, c, rest, rfl, hb, hb', fun b hb => ⟨?_, ?_⟩⟩
        · exact fun h => hselect (h ▸ List.mem_map_of_mem hb)
        · exact fun h => hfrom (h ▸ List.mem_map_of_mem hb)

theorem Headed.of_tags {t : Outline} (hs : s.Headed)
    (htags : t.blocks.map Block.tag = s.blocks.map Block.tag) : t.Headed := by
  obtain ⟨tags, h⟩ := hs
  exact ⟨tags, htags ▸ h⟩

theorem Headed.insert (hs : s.Headed) {b : Block} {before : Tag → Bool} (n : Nat)
    (hselect : b.tag ≠ .select) (hfrom : b.tag ≠ .fromClause) (hbefore : before .select = false)
    (hbefore' : before .fromClause = false) : (s.insert b before n).Headed := by
  obtain ⟨tags, htags, hs, hf⟩ := hs
  have hmem : ∀ t ∈ insertAhead before b.tag tags, t ∈ tags ∨ t = b.tag := fun t ht => by
    simpa using (insertAhead_perm before b.tag tags).mem_iff.1 ht
  refine ⟨insertAhead before b.tag tags, ?_, ?_, ?_⟩
  · have h := map_insertAhead Block.tag before b s.blocks
    rw [htags] at h
    simpa [Outline.insert, insertAhead, hbefore, hbefore'] using h.symm
  · exact fun h => (hmem _ h).elim hs (Ne.symm hselect)
  · exact fun h => (hmem _ h).elim hf (Ne.symm hfrom)

theorem Headed.add (hs : s.Headed) {b : Block} (n : Nat) (hselect : b.tag ≠ .select)
    (hfrom : b.tag ≠ .fromClause) : (s.add b n).Headed := by
  have h : (s.insert b (fun _ => false) n).Headed := hs.insert n hselect hfrom rfl rfl
  rwa [Outline.insert, insertAhead_of_none fun _ _ => rfl] at h

theorem Headed.nest (hs : s.Headed) (anchor : Block → Bool) (joint : Joint) (atoms : List Atom) :
    (s.nest anchor joint atoms).Headed := by
  rw [Outline.nest]
  by_cases hany : s.blocks.any anchor = true
  · rw [if_pos hany]
    exact hs.of_tags (map_modifyLast_of_eq (fun b => b.nest_tag) _)
  · rw [if_neg hany]
    have hselect : joint.tag ≠ .select := by cases joint <;> decide
    have hfrom : joint.tag ≠ .fromClause := by cases joint <;> decide
    exact hs.add _ hselect hfrom

theorem Headed.enter (hs : s.Headed) (tag : Tag) (e : Key → Entry) : (s.enter tag e).Headed :=
  hs.of_tags (map_modifyLast_of_eq (fun b => b.enter_tag) _)

theorem startsOrder_iff {t : Tag} : t.startsOrder = true ↔ t = .orderBy ∨ t = .orderByDesc := by
  cases t <;> simp [Tag.startsOrder]

theorem draft_nest_order (hs : s.Keyed) (joint : Joint) (atoms : List Atom) :
    s.draft.spend (atoms.length + 1)
        (s.draft.addToLastWhere (Addition.part ⟨s.nextKey, joint, atoms⟩) fun p =>
          p.tag.startsOrder) =
      (s.nest (fun b => b.tag.startsOrder) joint atoms).draft := by
  refine draft_nest_tag hs Tag.startsOrder joint atoms (fun t ht => ?_) fun j => by
    cases j <;> rfl
  obtain rfl | rfl := startsOrder_iff.1 ht <;> exact ⟨rfl, fun v => by cases v <;> decide⟩

theorem draft_order (hs : s.Keyed) {first : Tag} (hfirst : first.frame? = none) (next : Joint)
    (atoms : List Atom) :
    (if s.draft.contains .orderBy || s.draft.contains .orderByDesc then
      s.draft.spend (atoms.length + 1) (s.draft.addToLastWhere
        (Addition.part ⟨s.nextKey, next, atoms⟩) fun p => p.tag.startsOrder)
    else
      s.draft.spend (atoms.length + 1) (s.draft.add
        (.clause s.nextKey first none none (Part.ofAtoms (s.nextKey + 1) atoms)))) =
      (s.order first hfirst next atoms).draft := by
  have hany : (s.draft.contains .orderBy || s.draft.contains .orderByDesc) =
      s.blocks.any fun b => b.tag.startsOrder := by
    rw [draft_contains, draft_contains, Bool.eq_iff_iff]
    simp only [Bool.or_eq_true, List.any_eq_true, beq_iff_eq, startsOrder_iff, and_or_left,
      exists_or]
  rw [hany, order]
  by_cases h : (s.blocks.any fun b => b.tag.startsOrder) = true
  · rw [if_pos h, if_pos h]
    exact draft_nest_order hs next atoms
  · rw [if_neg h, if_neg h]
    simp [Draft.spend, Tree.add, draft, add, Block.part]

theorem Keyed.add (hs : s.Keyed) {b : Block} {n : Nat} (hb : b.keys = List.range' s.nextKey n) :
    (s.add b n).Keyed := by
  have h := hs.insert (fun _ => false) hb
  rwa [Outline.insert, insertAhead_of_none fun _ _ => rfl] at h

theorem Keyed.order (hs : s.Keyed) {first : Tag} (hfirst : first.frame? = none) (next : Joint)
    (atoms : List Atom) : (s.order first hfirst next atoms).Keyed := by
  rw [Outline.order]
  by_cases hany : (s.blocks.any fun b => b.tag.startsOrder) = true
  · rw [if_pos hany]
    exact hs.nest _ _ _
  · rw [if_neg hany]
    exact hs.add (by simp [Block.keys_clause])

theorem Headed.order (hs : s.Headed) {first : Tag} (hfirst : first.frame? = none) (next : Joint)
    (atoms : List Atom) (hfrom : first ≠ .fromClause) :
    (s.order first hfirst next atoms).Headed := by
  rw [Outline.order]
  by_cases hany : (s.blocks.any fun b => b.tag.startsOrder) = true
  · rw [if_pos hany]
    exact hs.nest _ _ _
  · rw [if_neg hany]
    exact hs.add _ (fun h => by rw [show first = .select from h] at hfirst; cases hfirst) hfrom

theorem Headed.restrict (hs : s.Headed) {before : Tag → Bool} (atoms : List Atom)
    (hselect : before .select = false) (hfrom : before .fromClause = false) :
    (s.restrict before atoms).Headed := by
  rw [Outline.restrict]
  by_cases hany : (s.blocks.any fun b => b.tag == .whereClause) = true
  · rw [if_pos hany]
    exact hs.nest _ _ _
  · rw [if_neg hany]
    have hapart {c : Clause} (hc : c.tag = .whereClause) {tag : Tag} (htag : .whereClause ≠ tag) :
        (Block.clause c).tag ≠ tag := fun h => htag (hc.symm.trans h)
    exact hs.insert _ (hapart rfl (by decide)) (hapart rfl (by decide)) hselect hfrom

theorem draft_openGrouping (s : Outline) :
    (if s.draft.contains .groupBy then s.draft
      else s.draft.spend 1
        (s.draft.addAheadOf (.list s.draft.nextKey .groupBy) fun p => p.tag.isOrder)) =
      s.openGrouping.draft := by
  rw [draft_contains, openGrouping]
  by_cases hany : (s.blocks.any fun b => b.tag == .groupBy) = true
  · rw [if_pos hany, if_pos hany]
  · rw [if_neg hany, if_neg hany, ← draft_insert]
    rfl

theorem any_openGrouping (s : Outline) :
    (s.openGrouping.blocks.any fun b => b.tag == .groupBy) = true := by
  rw [openGrouping]
  by_cases hany : (s.blocks.any fun b => b.tag == .groupBy) = true
  · rw [if_pos hany]
    exact hany
  · rw [if_neg hany, Outline.insert]
    have hmem := (insertAhead_perm (fun b => Tag.isOrder b.tag)
      (Block.listing { key := s.nextKey, tag := .groupBy }) s.blocks).mem_iff.2
        (List.mem_append_right _ List.mem_cons_self)
    exact List.any_eq_true.2 ⟨_, hmem, rfl⟩

theorem Keyed.openGrouping (hs : s.Keyed) : s.openGrouping.Keyed := by
  rw [Outline.openGrouping]
  by_cases hany : (s.blocks.any fun b => b.tag == .groupBy) = true
  · rwa [if_pos hany]
  · rw [if_neg hany]
    exact hs.insert _ (by simp [Block.keys_listing])

theorem Headed.openGrouping (hs : s.Headed) : s.openGrouping.Headed := by
  rw [Outline.openGrouping]
  by_cases hany : (s.blocks.any fun b => b.tag == .groupBy) = true
  · rwa [if_pos hany]
  · rw [if_neg hany]
    exact hs.insert _ nofun nofun rfl rfl

theorem draft_join (hs : s.Keyed) {kind : Tag} (hkind : kind.frame? = none) (entity : String)
    (tableAlias : Option String) (scope : Scope) (on : Expr) :
    ((s.draft.insertSource kind entity tableAlias fun p => p.tag.followsSources).extendClause
        s.draft.nextKey scope on).value =
      (s.join kind hkind entity tableAlias (scope.atoms on).value).draft := by
  rw [draft_insertSource s kind entity tableAlias Tag.followsSources hkind]
  have h := draft_extendClause (hs.setAlias entity tableAlias) (c :=
    { key := s.nextKey, tag := kind, entity := some entity, tableAlias, opensNoList := hkind })
    (s.setAlias_nextKey entity tableAlias).symm rfl rfl Tag.followsSources scope on
  rwa [setAlias_nextKey] at h

theorem Keyed.join (hs : s.Keyed) {kind : Tag} (hkind : kind.frame? = none) (entity : String)
    (tableAlias : Option String) (atoms : List Atom) :
    (s.join kind hkind entity tableAlias atoms).Keyed := by
  exact (hs.setAlias entity tableAlias).insert _ (by simp [Block.keys_clause])

theorem Headed.setAlias (hs : s.Headed) (entity : String) (tableAlias : Option String) :
    (s.setAlias entity tableAlias).Headed := by
  rwa [Headed, setAlias_blocks]

theorem Headed.join (hs : s.Headed) {kind : Tag} (hkind : kind.frame? = none) (entity : String)
    (tableAlias : Option String) (atoms : List Atom) (hfrom : kind ≠ .fromClause) :
    (s.join kind hkind entity tableAlias atoms).Headed :=
  (hs.setAlias entity tableAlias).insert _
    (fun h => by rw [show kind = .select from h] at hkind; cases hkind) hfrom rfl rfl

theorem supply_eq {l : Listing} {rest : List Block} (hblocks : s.blocks = .listing l :: rest)
    (fields : List ColumnRef) :
    s.supply fields =
      if l.isClosed then s
      else
        { s with
          blocks := .listing (l.supplied s.nextKey fields) :: rest
          nextKey := s.nextKey + (l.unmet fields).length } := by
  simp only [supply, hblocks]

theorem Keyed.entries (hs : s.Keyed) {l : Listing} (hl : .listing l ∈ s.blocks) :
    (l.entries.map Entry.key).Nodup ∧ ∀ e ∈ l.entries, e.key < s.nextKey := by
  have hnodup := (List.nodup_flatMap.1 hs.nodup).1 _ hl
  rw [Block.keys_listing, List.nodup_cons] at hnodup
  refine ⟨hnodup.2, fun e he => hs.lt_next _ (List.mem_flatMap.2 ⟨_, hl, ?_⟩)⟩
  rw [Block.keys_listing]
  exact List.mem_cons_of_mem _ (List.mem_map_of_mem he)

theorem supplied_entries (hs : s.Keyed) {l : Listing} (hl : .listing l ∈ s.blocks)
    (fields : List ColumnRef) :
    Draft.supplied (l.entries.map Entry.part) s.nextKey fields =
      ((l.supplied s.nextKey fields).entries.map Entry.part,
        s.nextKey + (l.unmet fields).length) := by
  obtain ⟨hnodup, hlt⟩ := hs.entries hl
  have hkeys : (l.entries.map Entry.part).map Part.key = l.entries.map Entry.key := by
    rw [List.map_map]
    exact List.map_congr_left fun e _ => e.part_key
  have hbelow : ∀ p ∈ l.entries.map Entry.part, p.key < s.nextKey := by
    intro p hp
    obtain ⟨e, he, rfl⟩ := List.mem_map.1 hp
    rw [Entry.part_key]
    exact hlt e he
  rw [Draft.supplied_eq fields (hkeys ▸ hnodup) hbelow, List.filterMap_map, List.filter_map,
    Listing.supplied, List.map_append, Entry.map_part_columns]
  rfl

theorem draft_supply (hs : s.Keyed) (hhead : s.Headed) (fields : List ColumnRef) :
    s.draft.supplyFields fields = (s.supply fields).draft := by
  obtain ⟨l, c, rest, hblocks, hl, hc, hrest⟩ := hhead.blocks
  have hmem : .listing l ∈ s.blocks := hblocks ▸ List.mem_cons_self
  have hothers : ∀ p ∈ (Block.clause c :: rest).map Block.part, p.tag ≠ .select := by
    intro p hp
    obtain ⟨b, hb, rfl⟩ := List.mem_map.1 hp
    rw [Block.part_tag]
    obtain rfl | hb := List.mem_cons.1 hb
    · exact fun h => nomatch (show Tag.fromClause = .select from hc ▸ h)
    · exact (hrest b hb).1
  have hsupply := supplied_entries hs hmem fields
  have hparts : s.draft.parts =
      .group { key := l.key, tag := l.tag } .list (l.entries.map Entry.part) l.isClosed ::
        (Block.clause c :: rest).map Block.part := by
    rw [draft, hblocks]
    rfl
  rw [Draft.supplyFields, hparts, Draft.supplyAll_cons hl hothers, supply_eq hblocks]
  by_cases hclosed : l.isClosed = true
  · rw [if_pos hclosed, if_pos hclosed, ← hparts]
  · rw [if_neg hclosed, if_neg hclosed]
    simp only [draft, hsupply]
    rfl

theorem Keyed.supply (hs : s.Keyed) (hhead : s.Headed) (fields : List ColumnRef) :
    (s.supply fields).Keyed := by
  obtain ⟨l, c, rest, hblocks, -⟩ := hhead.blocks
  rw [supply_eq hblocks]
  cases hclosed : l.isClosed with
  | true => exact hs
  | false =>
    refine hs.grow (n := (l.unmet fields).length) ?_ rfl
    have hstay : ((l.entries.filter fun e => Draft.stays fields e.part).map Entry.key).Sublist
        (l.entries.map Entry.key) := List.Sublist.map _ List.filter_sublist
    simp only [keys, hblocks, Bool.false_eq_true, if_false, List.flatMap_cons, Block.keys_listing,
      Listing.supplied, List.map_append, Entry.map_key_columns, List.cons_append,
      List.append_assoc]
    refine (List.subperm_cons _).2 (((hstay.append_right _).subperm).trans ?_)
    refine ((List.Perm.append_left _ ?_).subperm)
    rw [← List.append_assoc _ _ (List.range' ..)]
    exact List.perm_append_comm

theorem Headed.supply (hs : s.Headed) (fields : List ColumnRef) : (s.supply fields).Headed := by
  obtain ⟨l, c, rest, hblocks, -⟩ := hs.blocks
  rw [supply_eq hblocks]
  cases hclosed : l.isClosed with
  | true => exact hs
  | false =>
    refine hs.of_tags ?_
    rw [hblocks]
    rfl

theorem draft_closeSelect (s : Outline) : s.draft.closeSelect = s.closeSelect.draft := by
  simp only [Draft.closeSelect, draft, closeSelect, List.map_map]
  congr 2
  refine List.map_congr_left fun b _ => ?_
  simp only [Function.comp_apply, Block.part_tag]
  by_cases hb : (b.tag == .select) = true
  · rw [if_pos hb, if_pos hb]
    exact (Block.part_close (Block.isListing_of_frame? (by rw [beq_iff_eq.1 hb]; rfl))).symm
  · rw [if_neg hb, if_neg hb]

theorem closeSelect_keys (s : Outline) : s.closeSelect.keys = s.keys := by
  rw [keys, closeSelect, List.flatMap_map, keys]
  congr 1
  funext b
  by_cases hb : (b.tag == .select) = true
  · rw [if_pos hb, Block.close_keys]
  · rw [if_neg hb]

theorem Keyed.closeSelect (hs : s.Keyed) : s.closeSelect.Keyed :=
  ⟨s.closeSelect_keys ▸ hs.nodup, s.closeSelect_keys ▸ hs.lt_next⟩

theorem Headed.closeSelect (hs : s.Headed) : s.closeSelect.Headed := by
  refine hs.of_tags ?_
  rw [Outline.closeSelect, List.map_map]
  refine List.map_congr_left fun b _ => ?_
  rw [Function.comp_apply]
  by_cases hb : (b.tag == .select) = true
  · rw [if_pos hb, Block.close_tag]
  · rw [if_neg hb]

variable {P : Block → Prop}

theorem Has.join (h : s.Has P) {kind : Tag} (hkind : kind.frame? = none) (entity : String)
    (tableAlias : Option String) (atoms : List Atom) :
    (s.join kind hkind entity tableAlias atoms).Has P :=
  (h.setAlias entity tableAlias).insert _ _ _

theorem Has.order (h : s.Has P) (hP : ∀ {b} a, P b → P (b.nest a)) {first : Tag}
    (hfirst : first.frame? = none) (next : Joint) (atoms : List Atom) :
    (s.order first hfirst next atoms).Has P := by
  rw [Outline.order]
  by_cases hany : (s.blocks.any fun b => b.tag.startsOrder) = true
  · rw [if_pos hany]
    exact h.nest hP _ _ _
  · rw [if_neg hany]
    exact h.add _ _

theorem Has.openGrouping (h : s.Has P) : s.openGrouping.Has P := by
  rw [Outline.openGrouping]
  by_cases hany : (s.blocks.any fun b => b.tag == .groupBy) = true
  · rwa [if_pos hany]
  · rw [if_neg hany]
    exact h.insert _ _ _

theorem Has.supply (h : s.Has P) (hhead : s.Headed) (hP : ∀ {b}, P b → b.tag ≠ .select)
    (fields : List ColumnRef) : (s.supply fields).Has P := by
  obtain ⟨l, c, rest, hblocks, hl, -⟩ := hhead.blocks
  rw [supply_eq hblocks]
  by_cases hclosed : l.isClosed = true
  · rwa [if_pos hclosed]
  · rw [if_neg hclosed]
    obtain ⟨b, hb, hPb⟩ := h
    rw [hblocks] at hb
    obtain rfl | hb := List.mem_cons.1 hb
    · exact absurd hl (hP hPb)
    · exact ⟨b, List.mem_cons_of_mem _ hb, hPb⟩

theorem Has.closeSelect (h : s.Has P) (hP : ∀ {b}, P b → b.tag ≠ .select) :
    s.closeSelect.Has P := by
  obtain ⟨b, hb, hPb⟩ := h
  have hmem := List.mem_map_of_mem (f := fun b => if b.tag == .select then b.close else b) hb
  rw [if_neg (by simpa using hP hPb)] at hmem
  exact ⟨b, hmem, hPb⟩

theorem Each.join (h : s.Each P) {kind : Tag} (hkind : kind.frame? = none) {entity : String}
    {tableAlias : Option String} {atoms : List Atom}
    (hclause : ∀ key, P (.clause
      { key, tag := kind, entity := some entity, tableAlias, atoms, opensNoList := hkind })) :
    (s.join kind hkind entity tableAlias atoms).Each P :=
  (h.setAlias entity tableAlias).insert (hclause _) _ _

theorem Each.order (h : s.Each P) {first : Tag} (hfirst : first.frame? = none) {next : Joint}
    {atoms : List Atom} (hfrom : first ≠ .fromClause)
    (hnest : ∀ {b} key, P b → P (b.nest ⟨key, next, atoms⟩))
    (hclause : ∀ key tag (htag : tag.frame? = none), tag ≠ .fromClause →
      P (.clause { key, tag, atoms, opensNoList := htag })) :
    (s.order first hfirst next atoms).Each P := by
  rw [Outline.order]
  split_ifs
  · exact h.nest hnest (fun key => hclause key next.tag next.frame?_tag (by cases next <;> decide)) _
  · exact h.add (hclause _ first hfirst hfrom) _

theorem Each.openGrouping (h : s.Each P)
    (hlist : ∀ key, P (.listing { key, tag := .groupBy })) : s.openGrouping.Each P := by
  rw [Outline.openGrouping]
  split_ifs
  · exact h
  · exact h.insert (hlist _) _ _

theorem Each.supply (h : s.Each P) {fields : List ColumnRef}
    (hsupplied : ∀ {l} key, P (.listing l) → P (.listing (l.supplied key fields))) :
    (s.supply fields).Each P := by
  rw [Outline.supply]
  split
  · rename_i l rest hblocks
    split_ifs
    · exact h
    · intro b hb
      obtain rfl | hb := List.mem_cons.1 hb
      · exact hsupplied _ (h _ (hblocks ▸ List.mem_cons_self))
      · exact h b (hblocks ▸ List.mem_cons_of_mem _ hb)
  · exact h

theorem Each.closeSelect (h : s.Each P) (hclose : ∀ {b}, P b → b.tag = .select → P b.close) :
    s.closeSelect.Each P := by
  intro b hb
  obtain ⟨b, hmem, rfl⟩ := List.mem_map.1 hb
  split_ifs with htag
  · exact hclose (h b hmem) (beq_iff_eq.1 htag)
  · exact h b hmem

section

variable (s : Outline)

@[simp] theorem closeSelect_aliases : s.closeSelect.aliases = s.aliases := rfl

@[simp] theorem nest_aliases (anchor : Block → Bool) (joint : Joint) (atoms : List Atom) :
    (s.nest anchor joint atoms).aliases = s.aliases := by
  rw [nest]
  split_ifs <;> rfl

@[simp] theorem restrict_aliases (before : Tag → Bool) (atoms : List Atom) :
    (s.restrict before atoms).aliases = s.aliases := by
  rw [restrict]
  split_ifs
  · exact s.nest_aliases _ _ _
  · rfl

@[simp] theorem order_aliases {first : Tag} (hfirst : first.frame? = none) (next : Joint)
    (atoms : List Atom) : (s.order first hfirst next atoms).aliases = s.aliases := by
  rw [order]
  split_ifs
  · exact s.nest_aliases _ _ _
  · rfl

@[simp] theorem openGrouping_aliases : s.openGrouping.aliases = s.aliases := by
  rw [openGrouping]
  split_ifs <;> rfl

@[simp] theorem supply_aliases (fields : List ColumnRef) :
    (s.supply fields).aliases = s.aliases := by
  rw [supply]
  split
  · split_ifs <;> rfl
  · rfl

end

end Outline

end SqlComposer
