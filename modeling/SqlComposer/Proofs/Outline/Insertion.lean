import SqlComposer.Proofs.Outline

/-!
# Insertions into an outline

An insertion into a draft of two levels is the same insertion into its outline.
-/
namespace SqlComposer.Outline

variable {s : Outline}

theorem draft_contains (s : Outline) (tag : Tag) :
    s.draft.contains tag = s.blocks.any fun b => b.tag == tag :=
  any_map_of_eq fun b _ => by rw [Block.part_tag]

theorem draft_insert (s : Outline) (b : Block) (before : Tag → Bool) (n : Nat) :
    s.draft.spend n (s.draft.addAheadOf b.part fun p => before p.tag) =
      (s.insert b before n).draft := by
  simp only [Draft.spend, Tree.addAheadOf, draft, insert, map_insertAhead, Block.part_tag]

theorem draft_nest (hs : s.Keyed) {anchor : Part → Bool} {within : Block → Bool} (joint : Joint)
    (atoms : List Atom)
    (hwithin : ∀ b ∈ s.blocks, (b.part.isGroup && anchor b.part) = within b)
    (hclause : ∀ b ∈ s.blocks, within b = true → b.isClause = true)
    (hadditions : ∀ b ∈ s.blocks, ∀ a ∈ b.additions, anchor a.part = false) :
    s.draft.spend (atoms.length + 1)
        (s.draft.addToLastWhere (Addition.part ⟨s.nextKey, joint, atoms⟩) anchor) =
      (s.nest within joint atoms).draft := by
  have hkeys : (s.draft.flatten.map Part.key).Nodup := s.draft_flatten_keys ▸ hs.nodup
  have hdeep : ∀ p ∈ s.draft.parts, ∀ c ∈ Part.flattenAll p.children,
      (c.isGroup && anchor c) = false := by
    intro p hp c hc
    obtain ⟨b, hb, rfl⟩ := List.mem_map.1 hp
    cases hgroup : c.isGroup with
    | false => rfl
    | true =>
      obtain ⟨a, ha, rfl⟩ := Block.eq_addition_of_isGroup hc hgroup
      exact hadditions b hb a ha
  have hany : (s.draft.parts.any fun p => p.isGroup && anchor p) = s.blocks.any within :=
    any_map_of_eq hwithin
  rw [Tree.addToLastWhere_eq _ hkeys hdeep, hany, nest]
  by_cases h : s.blocks.any within = true
  · rw [if_pos h, if_pos h]
    simp only [Draft.spend, draft]
    rw [map_modifyLast hwithin fun b hb hw => Block.part_nest (hclause b hb hw)]
  · rw [if_neg h, if_neg h]
    simp [Draft.spend, Tree.add, draft, add, Block.part, Addition.part, Addition.clause]

theorem draft_nest_tag (hs : s.Keyed) (tags : Tag → Bool) (joint : Joint) (atoms : List Atom)
    (htags : ∀ t, tags t = true → t.frame? = none ∧ ∀ v : Verb, t ≠ v.tag)
    (hjoints : ∀ j : Joint, tags j.tag = false) :
    s.draft.spend (atoms.length + 1)
        (s.draft.addToLastWhere (Addition.part ⟨s.nextKey, joint, atoms⟩) fun p => tags p.tag) =
      (s.nest (fun b => tags b.tag) joint atoms).draft := by
  have hclause : ∀ b : Block, tags b.tag = true → b.isClause = true := fun b hb =>
    Block.isClause_of_frame? (htags _ hb).1 (htags _ hb).2
  refine draft_nest hs joint atoms (fun b _ => ?_) (fun b _ => hclause b)
    fun _ _ a _ => hjoints a.joint
  cases hb : tags b.tag with
  | false => simp [hb]
  | true => simp [hb, hclause b hb]

theorem draft_enter (hs : s.Keyed) {tag : Tag} (htag : tag.frame?.isSome)
    (hany : (s.blocks.any fun b => b.tag == tag) = true) (e : Key → Entry) :
    s.draft.spend 1 (s.draft.addToLast (e s.nextKey).part tag) = (s.enter tag e).draft := by
  have hlisting : ∀ b : Block, (b.tag == tag) = true → b.isListing = true := fun b hb =>
    Block.isListing_of_frame? ((beq_iff_eq.1 hb).symm ▸ htag)
  have hwithin : ∀ b ∈ s.blocks, (b.part.isGroup && b.part.tag == tag) = (b.tag == tag) := by
    intro b _
    cases hb : b.tag == tag with
    | false => simp [hb]
    | true => simp [hb, hlisting b hb]
  have hkeys : (s.draft.flatten.map Part.key).Nodup := s.draft_flatten_keys ▸ hs.nodup
  have hdeep : ∀ p ∈ s.draft.parts, ∀ c ∈ Part.flattenAll p.children,
      (c.isGroup && c.tag == tag) = false := by
    intro p hp c hc
    obtain ⟨b, hb, rfl⟩ := List.mem_map.1 hp
    cases hgroup : c.isGroup with
    | false => rfl
    | true =>
      obtain ⟨a, -, rfl⟩ := Block.eq_addition_of_isGroup hc hgroup
      have hne : a.joint.tag ≠ tag := by
        intro h
        rw [← h, a.joint.frame?_tag] at htag
        cases htag
      simpa [Addition.part_tag] using hne
  rw [Tree.addToLast, Tree.addToLastWhere_eq _ hkeys hdeep,
    show (s.draft.parts.any fun p => p.isGroup && p.tag == tag) = _ from any_map_of_eq hwithin,
    if_pos hany]
  simp only [Draft.spend, draft, enter]
  rw [map_modifyLast hwithin fun b _ hb => Block.part_enter (hlisting b hb)]

theorem draft_restrict (hs : s.Keyed) (scope : Scope) (e : Expr) (before : Tag → Bool) :
    (s.draft.addRestriction scope e fun p => before p.tag).value =
      (s.restrict before (scope.atoms e).value).draft := by
  simp only [Draft.addRestriction, Draft.nestExpression, Draft.expressionClause, restrict,
    draft_contains]
  by_cases h : (s.blocks.any fun b => b.tag == .whereClause) = true
  · simp only [h, if_true, Reading.value_bind, Reading.value_pure]
    refine draft_nest_tag hs (fun t => t == .whereClause) .and _ (fun t ht => ?_) fun j => by
      cases j <;> rfl
    obtain rfl := beq_iff_eq.1 ht
    exact ⟨rfl, fun v => by cases v <;> decide⟩
  · simp only [h, Bool.false_eq_true, if_false, Reading.value_bind, Reading.value_pure]
    rw [← draft_insert]
    simp [Block.part, draft]

theorem draft_insertSource (s : Outline) (tag : Tag) (entity : String) (tableAlias : Option String)
    (before : Tag → Bool) (hframe : tag.frame? = none) :
    s.draft.insertSource tag entity tableAlias (fun p => before p.tag) =
      ((s.setAlias entity tableAlias).insert
        (.clause
          { key := s.nextKey, tag, entity := some entity, tableAlias, opensNoList := hframe })
        before 1).draft := by
  rw [← draft_insert]
  cases tableAlias <;> simp [Draft.insertSource, setAlias, draft, Tree.setAlias, Draft.spend,
    Block.part, Part.ofAtoms, Tree.addAheadOf]

theorem draft_extendClause (hs : s.Keyed) {c : Clause} (hkey : c.key = s.nextKey)
    (hadditions : c.additions = []) (hatoms : c.atoms = []) (before : Tag → Bool) (scope : Scope)
    (e : Expr) :
    ((s.insert (.clause c) before 1).draft.extendClause s.nextKey scope e).value =
      (s.insert (.clause { c with atoms := (scope.atoms e).value }) before
        ((scope.atoms e).value.length + 1)).draft := by
  obtain ⟨l, r, hblocks, hinsert⟩ := exists_insertAhead (fun b : Block => before b.tag) s.blocks
  have hopen : (s.insert (.clause c) before 1).Keyed :=
    hs.insert before (by simp [Block.keys_clause, hadditions, hatoms, hkey])
  have hleft : ∀ p ∈ Part.flattenAll (l.map Block.part), ¬(p.key == s.nextKey) = true := by
    intro p hp
    have hmem : p.key ∈ s.keys := by
      rw [← draft_flatten_keys, Tree.flatten, draft, hblocks, List.map_append,
        Part.flattenAll_append]
      exact List.mem_map_of_mem (List.mem_append_left _ hp)
    simpa using Nat.ne_of_lt (hs.lt_next _ hmem)
  have hfind : (s.insert (.clause c) before 1).draft.find? s.nextKey =
      some (Block.clause c).part := by
    simp only [Tree.find?, Tree.flatten, draft, Outline.insert, hinsert, List.map_append,
      List.map_cons, Part.flattenAll_append, List.find?_append]
    rw [List.find?_eq_none.2 hleft, Part.flattenAll, Part.flatten_eq]
    simp [Block.key, hkey]
  have hparts : ∀ b : Block, ∀ n, (s.insert b before n).draft.parts =
      l.map Block.part ++ b.part :: r.map Block.part := by
    intro b n
    simp [draft, Outline.insert, hinsert]
  have hkeys := hopen.nodup
  rw [← draft_flatten_keys, Tree.flatten, hparts] at hkeys
  have hupdate (f : Part → Part) := Part.updateAll_append_cons (f := f) hkeys
  rw [Block.part_key, Block.key, hkey] at hupdate
  simp only [Draft.extendClause, hfind, Block.part, Part.clause, Reading.value_bind,
    Reading.value_pure]
  simp only [Draft.spend, Tree.update, hparts, hupdate]
  simp only [Block.part, Part.clause, Part.foldl_push]
  simp [draft, Outline.insert, hinsert, Block.part, Part.clause, hadditions, hatoms, hkey,
    Part.ofAtoms, Nat.add_assoc, Nat.add_comm]

theorem draft_nest_key (hs : s.Keyed) (joint : Joint) (atoms : List Atom) {target : Option Key}
    (htarget : ∀ k, target = some k → s.Has (Block.ClauseAt k)) :
    s.draft.spend (atoms.length + 1)
        (s.draft.addToLastWhere (Addition.part ⟨s.nextKey, joint, atoms⟩) fun p =>
          some p.key == target) =
      (s.nest (fun b => some b.key == target) joint atoms).draft := by
  have hclause : ∀ b ∈ s.blocks, (some b.key == target) = true → b.isClause = true := by
    intro b hb hkey
    obtain ⟨b', hb', hclause, hkey'⟩ := htarget b.key (beq_iff_eq.1 hkey).symm
    rwa [hs.block_eq hb hb' b.key_mem_keys (hkey' ▸ b'.key_mem_keys)]
  refine draft_nest hs joint atoms (fun b hb => ?_) hclause fun b hb a ha => ?_
  · rw [Block.part_isGroup, Block.part_key]
    cases hkey : some b.key == target with
    | false => rw [Bool.and_false]
    | true => rw [hclause b hb hkey, Bool.true_or, Bool.true_and]
  · cases hkey : some a.part.key == target with
    | false => rfl
    | true =>
      obtain ⟨b', hb', -, hkey'⟩ := htarget a.key (beq_iff_eq.1 hkey).symm
      exact absurd hkey'.symm (hs.addition_ne hb' hb ha)

end SqlComposer.Outline
