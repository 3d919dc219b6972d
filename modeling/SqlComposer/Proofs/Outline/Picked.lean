import SqlComposer.Proofs.Outline.Query

/-!
# The blocks with some of the tags

What an insertion does to the blocks that have one of some tags: it changes them only if its own
block has such a tag, or if it goes on with one of them.
-/
namespace SqlComposer

section

variable {α : Type} {p q : α → Bool} {a : α} {l : List α}

theorem filter_insertAhead_of_neg (ha : q a = false) (l : List α) :
    (insertAhead p a l).filter q = l.filter q := by
  obtain ⟨front, back, rfl, hins⟩ := exists_insertAhead p l
  rw [hins a, List.filter_append, List.filter_append, List.filter_cons_of_neg (by simp [ha])]

/-- Where nothing that `q` picks stands at or behind what `p` picks, an insertion ahead of the
latter goes behind all of the former. -/
theorem filter_insertAhead_of_pos (ha : q a = true) (hpq : ∀ b ∈ l, p b = true → q b = false)
    (hl : l.Pairwise fun b c => p b = true → q c = false) :
    (insertAhead p a l).filter q = l.filter q ++ [a] := by
  induction l with
  | nil => simp [insertAhead, ha]
  | cons b l ih =>
    obtain ⟨hb, hl⟩ := List.pairwise_cons.1 hl
    obtain ⟨hqb, hpq⟩ := List.forall_mem_cons.1 hpq
    by_cases hp : p b = true
    · have hnone : (b :: l).filter q = [] := by
        refine List.filter_eq_nil_iff.2 (List.forall_mem_cons.2 ⟨?_, fun c hc => ?_⟩)
        · simp [hqb hp]
        · simp [hb c hc hp]
      rw [insertAhead, if_pos hp, List.filter_cons_of_pos ha, hnone, List.nil_append]
    · rw [insertAhead, if_neg hp, List.filter_cons, List.filter_cons, ih hpq hl]
      split_ifs <;> rfl

/-- An insertion keeps a relation between neighbours near and far, if the elements ahead of it are
related to the new one and whatever it stands ahead of passes its relations on. -/
theorem pairwise_insertAhead {R : α → α → Prop} (hl : l.Pairwise R)
    (hahead : ∀ b ∈ l, p b = false → R b a)
    (hbehind : ∀ b ∈ l, p b = true → R a b ∧ ∀ c ∈ l, R b c → R a c) :
    (insertAhead p a l).Pairwise R := by
  induction l with
  | nil => exact List.pairwise_singleton R a
  | cons b l ih =>
    obtain ⟨hb, hrest⟩ := List.pairwise_cons.1 hl
    by_cases hp : p b = true
    · obtain ⟨hab, hpass⟩ := hbehind b List.mem_cons_self hp
      rw [insertAhead, if_pos hp]
      refine List.pairwise_cons.2 ⟨List.forall_mem_cons.2 ⟨hab, fun c hc => ?_⟩, hl⟩
      exact hpass c (List.mem_cons_of_mem _ hc) (hb c hc)
    · rw [insertAhead, if_neg hp]
      refine List.pairwise_cons.2 ⟨fun c hc => ?_, ih hrest ?_ ?_⟩
      · obtain hc | hc := List.mem_append.1 ((insertAhead_perm p a l).mem_iff.1 hc)
        · exact hb c hc
        · rw [List.mem_singleton.1 hc]
          exact hahead b List.mem_cons_self (by simpa using hp)
      · exact fun c hc => hahead c (List.mem_cons_of_mem _ hc)
      · intro c hc hpc
        obtain ⟨hac, hpass⟩ := hbehind c (List.mem_cons_of_mem _ hc) hpc
        exact ⟨hac, fun d hd => hpass d (List.mem_cons_of_mem _ hd)⟩

variable {f : α → α}

theorem filter_modifyLast (hp : ∀ b ∈ l, p b = true → q b = true) (hf : ∀ b, q (f b) = q b) :
    (modifyLast p f l).filter q = modifyLast p f (l.filter q) := by
  induction l with
  | nil => rfl
  | cons b l ih =>
    obtain ⟨hpb, hp⟩ := List.forall_mem_cons.1 hp
    have hany : (l.filter q).any p = l.any p := by
      rw [Bool.eq_iff_iff, List.any_eq_true, List.any_eq_true]
      exact ⟨fun ⟨c, hc, hpc⟩ => ⟨c, List.mem_of_mem_filter hc, hpc⟩,
        fun ⟨c, hc, hpc⟩ => ⟨c, List.mem_filter.2 ⟨hc, hp c hc hpc⟩, hpc⟩⟩
    rw [modifyLast]
    by_cases hlast : (p b && !l.any p) = true
    · have hqb := hpb (Bool.and_eq_true_iff.1 hlast).1
      rw [if_pos hlast, List.filter_cons_of_pos ((hf b).trans hqb), List.filter_cons_of_pos hqb,
        modifyLast, hany, if_pos hlast]
    · rw [if_neg hlast, List.filter_cons, List.filter_cons, ih hp]
      by_cases hqb : q b = true
      · rw [if_pos hqb, if_pos hqb, modifyLast, hany, if_neg hlast]
      · rw [if_neg hqb, if_neg hqb]

theorem filter_modifyLast_of_neg (hp : ∀ b ∈ l, p b = true → q b = false)
    (hf : ∀ b, q (f b) = q b) : (modifyLast p f l).filter q = l.filter q := by
  induction l with
  | nil => rfl
  | cons b l ih =>
    obtain ⟨hpb, hp⟩ := List.forall_mem_cons.1 hp
    rw [modifyLast]
    by_cases hlast : (p b && !l.any p) = true
    · have hqb := hpb (Bool.and_eq_true_iff.1 hlast).1
      rw [if_pos hlast, List.filter_cons_of_neg (by simp [hf, hqb]),
        List.filter_cons_of_neg (by simp [hqb])]
    · rw [if_neg hlast, List.filter_cons, List.filter_cons, ih hp]

end

namespace Outline

def picked (s : Outline) (tags : Tag → Bool) : List Block :=
  s.blocks.filter fun b => tags b.tag

variable {s : Outline} {tags : Tag → Bool}

theorem any_tag_iff (s : Outline) (tags : Tag → Bool) :
    (s.blocks.any fun b => tags b.tag) = true ↔ s.picked tags ≠ [] := by
  simp [picked]

@[simp] theorem picked_setAlias (s : Outline) (entity : String) (tableAlias : Option String) :
    (s.setAlias entity tableAlias).picked tags = s.picked tags := by
  rw [picked, setAlias_blocks, picked]

theorem picked_insert_of_neg {b : Block} (hb : tags b.tag = false) (before : Tag → Bool) (n : Nat) :
    (s.insert b before n).picked tags = s.picked tags :=
  filter_insertAhead_of_neg (q := fun b : Block => tags b.tag) hb s.blocks

theorem picked_insert_of_pos {b : Block} (hb : tags b.tag = true) {before : Tag → Bool}
    (hbefore : ∀ t, before t = true → tags t = false)
    (hs : (s.blocks.map Block.tag).Pairwise fun t u => before t = true → tags u = false) (n : Nat) :
    (s.insert b before n).picked tags = s.picked tags ++ [b] :=
  filter_insertAhead_of_pos (q := fun b : Block => tags b.tag) hb (fun c _ => hbefore c.tag)
    (List.pairwise_map.1 hs)

theorem picked_insert_of_nil {b : Block} (hs : s.picked tags = []) (hb : tags b.tag = true)
    (before : Tag → Bool) (n : Nat) : (s.insert b before n).picked tags = [b] := by
  obtain ⟨front, back, hblocks, hins⟩ := exists_insertAhead (fun b => before b.tag) s.blocks
  rw [picked, hblocks, List.filter_append, List.append_eq_nil_iff] at hs
  simp [picked, insert, hins b, hs.1, hs.2, hb]

theorem picked_add_of_neg {b : Block} (hb : tags b.tag = false) (n : Nat) :
    (s.add b n).picked tags = s.picked tags := by
  simp [picked, add, hb]

theorem picked_add_of_pos {b : Block} (hb : tags b.tag = true) (n : Nat) :
    (s.add b n).picked tags = s.picked tags ++ [b] := by
  simp [picked, add, hb]

theorem nest_of_none {anchor : Block → Bool} (hnone : ∀ b ∈ s.blocks, anchor b = false)
    (joint : Joint) (atoms : List Atom) :
    s.nest anchor joint atoms =
      s.add (.clause (Addition.clause ⟨s.nextKey, joint, atoms⟩)) (atoms.length + 1) :=
  if_neg (by simpa using hnone)

theorem mem_picked {b : Block} : b ∈ s.picked tags ↔ b ∈ s.blocks ∧ tags b.tag = true :=
  List.mem_filter

theorem last_mem_picked {front : List Block} {b : Block} (hs : s.picked tags = front ++ [b]) :
    b ∈ s.blocks ∧ tags b.tag = true :=
  mem_picked.1 (hs ▸ List.mem_append_right front List.mem_cons_self)

theorem picked_nest_of_neg {anchor : Block → Bool} (hany : s.blocks.any anchor = true)
    (hanchor : ∀ b ∈ s.blocks, anchor b = true → tags b.tag = false) (joint : Joint)
    (atoms : List Atom) : (s.nest anchor joint atoms).picked tags = s.picked tags := by
  rw [nest, if_pos hany]
  exact filter_modifyLast_of_neg hanchor fun b => by rw [Block.nest_tag]

theorem picked_nest_of_pos {anchor : Block → Bool} {front : List Block} {b : Block}
    (hs : s.picked tags = front ++ [b]) (hb : anchor b = true)
    (hanchor : ∀ b ∈ s.blocks, anchor b = true → tags b.tag = true) (joint : Joint)
    (atoms : List Atom) :
    (s.nest anchor joint atoms).picked tags = front ++ [b.nest ⟨s.nextKey, joint, atoms⟩] := by
  rw [nest, if_pos (List.any_eq_true.2 ⟨b, (last_mem_picked hs).1, hb⟩)]
  have hfilter := filter_modifyLast (f := Block.nest ⟨s.nextKey, joint, atoms⟩) hanchor
    fun b => by rw [Block.nest_tag]
  rw [picked] at hs
  rw [picked, hfilter, hs]
  exact modifyLast_append_cons hb (List.forall_mem_nil _)

theorem picked_enter {tag : Tag} (htag : tags tag = false) (e : Key → Entry) :
    (s.enter tag e).picked tags = s.picked tags :=
  filter_modifyLast_of_neg (fun b _ hb => by rwa [beq_iff_eq.1 hb])
    fun b => by rw [Block.enter_tag]

theorem picked_openGrouping (htags : tags .groupBy = false) :
    s.openGrouping.picked tags = s.picked tags := by
  rw [openGrouping]
  split_ifs
  · rfl
  · exact picked_insert_of_neg htags _ _

theorem supply_tags (hs : s.Headed) (fields : List ColumnRef) :
    (s.supply fields).blocks.map Block.tag = s.blocks.map Block.tag := by
  obtain ⟨l, c, rest, hblocks, -⟩ := hs.blocks
  rw [supply_eq hblocks]
  split_ifs
  · rfl
  · rw [hblocks]
    rfl

theorem picked_supply (hs : s.Headed) (htags : tags .select = false) (fields : List ColumnRef) :
    (s.supply fields).picked tags = s.picked tags := by
  obtain ⟨l, c, rest, hblocks, hl, -⟩ := hs.blocks
  rw [supply_eq hblocks]
  split_ifs
  · rfl
  · have hself : tags (Block.listing l).tag = false := (congrArg tags hl).trans htags
    have hnew : tags (Block.listing (l.supplied s.nextKey fields)).tag = false := hself
    simp [picked, hblocks, hself, hnew]

theorem picked_closeSelect (htags : tags .select = false) :
    s.closeSelect.picked tags = s.picked tags := by
  rw [picked, closeSelect, picked]
  induction s.blocks with
  | nil => rfl
  | cons b bs ih =>
    rw [List.map_cons, List.filter_cons, List.filter_cons, ih]
    by_cases hb : (b.tag == .select) = true
    · rw [if_pos hb, Block.close_tag, beq_iff_eq.1 hb, htags]
      rfl
    · rw [if_neg hb]

theorem filter_parts (s : Outline) (tags : Tag → Bool) :
    (s.draft.parts.filter fun p => tags p.tag) = (s.picked tags).map Block.part := by
  rw [draft, List.filter_map, picked]
  simp only [Function.comp_def, Block.part_tag]

end Outline

end SqlComposer
