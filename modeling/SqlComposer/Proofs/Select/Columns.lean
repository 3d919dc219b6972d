import SqlComposer.Proofs.Select.Lasting

/-!
# The columns of an outline

An outline of a query shows columns in two places: its select list, which comes first and has an
order, and the blocks behind it. Growing a block adds columns behind the select list, and only what
is entered into the list itself or asked from it changes the list.
-/
namespace SqlComposer

def Atom.column? : Atom → Option ColumnRef
  | .field f => some f
  | _ => none

theorem Part.field?_ofAtom (key : Key) (a : Atom) : (Part.ofAtom key a).field? = a.column? := by
  cases a <;> rfl

theorem Part.filterMap_field?_ofAtoms (key : Key) (atoms : List Atom) :
    (Part.ofAtoms key atoms).filterMap Part.field? = atoms.filterMap Atom.column? := by
  induction atoms generalizing key with
  | nil => rfl
  | cons a atoms ih => rw [ofAtoms, List.filterMap_cons, List.filterMap_cons, field?_ofAtom, ih]

@[simp] theorem Entry.field?_column (key : Key) (f : ColumnRef) :
    (Entry.column key f).part.field? = some f := rfl

@[simp] theorem Entry.field?_parameter (key : Key) (p : Parameter) :
    (Entry.parameter key p).part.field? = none := rfl

structure Selection where
  columns : List ColumnRef := []
  isFixed : Bool := false

namespace Selection

def take (chosen : Selection) (f : ColumnRef) : Selection :=
  { chosen with columns := if chosen.isFixed then chosen.columns else chosen.columns ++ [f] }

/-- The columns that answer to requested ones, and then the requested ones that none answers to. -/
def supply (chosen : Selection) (fields : List ColumnRef) : Selection :=
  { chosen with
    columns :=
      if chosen.isFixed then chosen.columns
      else
        (chosen.columns.filter fun f => fields.any fun r => Draft.answers r f) ++
          Draft.unmet chosen.columns fields }

def fix (chosen : Selection) : Selection :=
  { chosen with isFixed := true }

variable {chosen : Selection}

theorem take_of_fixed (h : chosen.isFixed = true) (f : ColumnRef) : chosen.take f = chosen := by
  rw [take, if_pos h]

theorem supply_of_fixed (h : chosen.isFixed = true) (fields : List ColumnRef) :
    chosen.supply fields = chosen := by
  rw [supply, if_pos h]

theorem fix_of_fixed (h : chosen.isFixed = true) : chosen.fix = chosen := by
  rw [fix, ← h]

end Selection

theorem Block.tag_ne_select {b : Block} (hb : b.isClause = true) : b.tag ≠ .select := by
  cases b with
  | clause c =>
    intro htag
    have hframe := c.opensNoList
    rw [show c.tag = .select from htag] at hframe
    cases hframe
  | text | listing => cases hb

def Block.columns (b : Block) : List ColumnRef :=
  b.part.flatten.filterMap Part.field?

def Addition.columns (a : Addition) : List ColumnRef :=
  a.atoms.filterMap Atom.column?

def Listing.columns (l : Listing) : List ColumnRef :=
  l.entries.filterMap fun e => e.part.field?

def Listing.selection (l : Listing) : Selection :=
  ⟨l.columns, l.isClosed⟩

namespace Block

theorem columns_listing (l : Listing) : (listing l).columns = l.columns := by
  simp only [columns, part, Part.flatten, Entry.flattenAll_part, List.filterMap_cons, Part.field?,
    List.filterMap_map]
  rfl

theorem columns_clause (c : Clause) :
    (clause c).columns = c.atoms.filterMap Atom.column? ++ c.additions.flatMap Addition.columns := by
  have haddition (a : Addition) : a.part.flatten.filterMap Part.field? = a.columns := by
    rw [Addition.part, Part.clause, Part.flatten, Part.flattenAll_ofAtoms, List.filterMap_cons,
      Part.filterMap_field?_ofAtoms]
    rfl
  have hadditions : (Part.flattenAll (c.additions.map Addition.part)).filterMap Part.field? =
      c.additions.flatMap Addition.columns := by
    simp only [Part.flattenAll_eq, List.flatMap_map, List.filterMap_flatMap, haddition]
  simp only [columns, part, Part.clause, Part.flatten, Part.flattenAll_append,
    Part.flattenAll_ofAtoms, List.filterMap_cons, List.filterMap_append,
    Part.filterMap_field?_ofAtoms, hadditions, Part.field?]

theorem columns_nest {b : Block} (hb : b.isClause = true) (a : Addition) :
    (b.nest a).columns = b.columns ++ a.columns := by
  cases b with
  | clause c => simp [nest, Clause.nest, columns_clause]
  | text | listing => cases hb

theorem columns_enter {b : Block} (hb : b.isListing = true) (hopen : b.isClosed = false)
    (key : Key) (f : ColumnRef) : (b.enter (.column key f)).columns = b.columns ++ [f] := by
  cases b with
  | listing l =>
    have hl : l.isClosed = false := hopen
    simp [enter, Listing.enter, columns_listing, Listing.columns, hl]
  | text | clause => cases hb

end Block

theorem Entry.filterMap_field?_columns (key : Key) (fields : List ColumnRef) :
    (Entry.columns key fields).filterMap (fun e => e.part.field?) = fields := by
  induction fields generalizing key with
  | nil => rfl
  | cons f fields ih =>
    simp [columns, ih]

namespace Listing

theorem selection_enter (l : Listing) (key : Key) (f : ColumnRef) :
    (l.enter (.column key f)).selection = l.selection.take f := by
  cases hclosed : l.isClosed <;>
    simp [enter, selection, Selection.take, columns, hclosed]

theorem selection_supplied {l : Listing} (hopen : l.isClosed = false) (key : Key)
    (fields : List ColumnRef) :
    (l.supplied key fields).selection = l.selection.supply fields := by
  have hstays (entries : List Entry) :
      (entries.filter fun e => Draft.stays fields e.part).filterMap (fun e => e.part.field?) =
        (entries.filterMap fun e => e.part.field?).filter
          fun f => fields.any fun r => Draft.answers r f := by
    induction entries with
    | nil => rfl
    | cons e entries ih =>
      cases e with
      | parameter =>
        rw [List.filter_cons_of_pos rfl]
        exact ih
      | column key f =>
        have hcolumn : Draft.stays fields (Entry.column key f).part =
            fields.any fun r => Draft.answers r f := by
          simp [Draft.stays, Draft.covers, Draft.answers]
        rw [List.filter_cons, hcolumn]
        cases hf : fields.any fun r => Draft.answers r f <;> simp [ih, hf]
  simp only [selection, supplied, Selection.supply, columns, hopen, List.filterMap_append, hstays,
    Entry.filterMap_field?_columns, Bool.false_eq_true, if_false, unmet]

end Listing

namespace Outline

/-- A select list with the chosen columns comes first, and the blocks behind it show the others in
some order. -/
def Over (s : Outline) (chosen : Selection) (others : List ColumnRef) : Prop :=
  ∃ l rest, s.blocks = .listing l :: rest ∧ l.tag = .select ∧ (∀ b ∈ rest, b.tag ≠ .select) ∧
    l.selection = chosen ∧ (rest.flatMap Block.columns).Perm others

variable {s : Outline} {chosen : Selection} {others : List ColumnRef}

theorem Over.setAlias (h : s.Over chosen others) (entity : String) (tableAlias : Option String) :
    (s.setAlias entity tableAlias).Over chosen others := by
  rwa [Over, setAlias_blocks]

theorem Over.insert (h : s.Over chosen others) {b : Block} (hb : b.tag ≠ .select)
    {before : Tag → Bool} (hbefore : before .select = false) (n : Nat) :
    (s.insert b before n).Over chosen (others ++ b.columns) := by
  obtain ⟨l, rest, hblocks, hl, hrest, hchosen, hothers⟩ := h
  have hperm := insertAhead_perm (fun b => before b.tag) b rest
  have hahead : before (Block.listing l).tag = false := by rw [Block.tag, hl, hbefore]
  refine ⟨l, insertAhead (fun b => before b.tag) b rest, ?_, hl, fun b' hb' => ?_, hchosen, ?_⟩
  · simp [Outline.insert, hblocks, insertAhead, hahead]
  · obtain hb' | hb' := List.mem_append.1 (hperm.mem_iff.1 hb')
    · exact hrest b' hb'
    · rwa [List.mem_singleton.1 hb']
  · have hcolumns := hperm.flatMap_right Block.columns
    rw [List.flatMap_append, List.flatMap_singleton] at hcolumns
    exact hcolumns.trans (hothers.append_right _)

theorem Over.insert_clause (h : s.Over chosen others) {c : Clause} (hc : c.additions = [])
    {before : Tag → Bool} (hbefore : before .select = false) (n : Nat) :
    (s.insert (.clause c) before n).Over chosen (others ++ c.atoms.filterMap Atom.column?) := by
  have hinsert : (s.insert (.clause c) before n).Over chosen (others ++ (Block.clause c).columns) :=
    h.insert (Block.tag_ne_select rfl) hbefore n
  rwa [Block.columns_clause, hc, List.flatMap_nil, List.append_nil] at hinsert

theorem Over.add_clause (h : s.Over chosen others) {c : Clause} (hc : c.additions = []) (n : Nat) :
    (s.add (.clause c) n).Over chosen (others ++ c.atoms.filterMap Atom.column?) := by
  have hinsert : (s.insert (.clause c) (fun _ => false) n).Over chosen
      (others ++ c.atoms.filterMap Atom.column?) := h.insert_clause hc rfl n
  rwa [Outline.insert, insertAhead_of_none fun _ _ => rfl] at hinsert

theorem Over.modifyLast (h : s.Over chosen others) {p : Block → Bool} {f : Block → Block}
    {new : List ColumnRef} (hany : s.blocks.any p = true)
    (hp : ∀ b ∈ s.blocks, p b = true → b.tag ≠ .select ∧ (f b).columns = b.columns ++ new)
    (htag : ∀ b, (f b).tag = b.tag) (n : Key) :
    Over { s with blocks := SqlComposer.modifyLast p f s.blocks, nextKey := n } chosen
      (others ++ new) := by
  obtain ⟨l, rest, hblocks, hl, hrest, hchosen, hothers⟩ := h
  rw [hblocks] at hany hp
  have hhead : p (.listing l) = false :=
    Bool.eq_false_iff.2 fun h => (hp _ List.mem_cons_self h).1 hl
  have hanyRest : rest.any p = true := by simpa [hhead] using hany
  refine ⟨l, SqlComposer.modifyLast p f rest, ?_, hl, fun b hb => ?_, hchosen, ?_⟩
  · simp [hblocks, SqlComposer.modifyLast, hhead]
  · obtain hb | ⟨b', hb', rfl⟩ := eq_or_of_mem_modifyLast hb
    · exact hrest b hb
    · rw [htag]
      exact hrest b' hb'
  · refine (flatMap_modifyLast_perm hanyRest fun b hb hpb => ?_).trans (hothers.append_right new)
    rw [(hp b (List.mem_cons_of_mem _ hb) hpb).2]

theorem Over.nest (h : s.Over chosen others) {anchor : Block → Bool}
    (hclause : ∀ b ∈ s.blocks, anchor b = true → b.isClause = true) (joint : Joint)
    (atoms : List Atom) :
    (s.nest anchor joint atoms).Over chosen (others ++ atoms.filterMap Atom.column?) := by
  rw [Outline.nest]
  by_cases hany : s.blocks.any anchor = true
  · rw [if_pos hany]
    exact h.modifyLast hany (fun b hb hanchor => ⟨Block.tag_ne_select (hclause b hb hanchor),
      Block.columns_nest (hclause b hb hanchor) ⟨s.nextKey, joint, atoms⟩⟩)
      (fun b => Block.nest_tag) _
  · rw [if_neg hany]
    exact h.add_clause rfl _

theorem Over.nest_tag (h : s.Over chosen others) (tags : Tag → Bool)
    (htags : ∀ t, tags t = true → t.frame? = none ∧ ∀ v : Verb, t ≠ v.tag) (joint : Joint)
    (atoms : List Atom) :
    (s.nest (fun b => tags b.tag) joint atoms).Over chosen
      (others ++ atoms.filterMap Atom.column?) :=
  h.nest (fun _ _ hb => Block.isClause_of_frame? (htags _ hb).1 (htags _ hb).2) joint atoms

theorem Over.restrict (h : s.Over chosen others) {before : Tag → Bool}
    (hbefore : before .select = false) (atoms : List Atom) :
    (s.restrict before atoms).Over chosen (others ++ atoms.filterMap Atom.column?) := by
  rw [Outline.restrict]
  by_cases hany : (s.blocks.any fun b => b.tag == .whereClause) = true
  · rw [if_pos hany]
    exact h.nest_tag (fun t => t == .whereClause) whereClause_clause .and atoms
  · rw [if_neg hany]
    exact h.insert_clause rfl hbefore _

theorem Over.order (h : s.Over chosen others) {first : Tag} (hfirst : first.frame? = none)
    (next : Joint) (atoms : List Atom) :
    (s.order first hfirst next atoms).Over chosen (others ++ atoms.filterMap Atom.column?) := by
  rw [Outline.order]
  by_cases hany : (s.blocks.any fun b => b.tag.startsOrder) = true
  · rw [if_pos hany]
    exact h.nest_tag Tag.startsOrder startsOrder_clause next atoms
  · rw [if_neg hany]
    exact h.add_clause rfl _

theorem Over.join (h : s.Over chosen others) {kind : Tag} (hkind : kind.frame? = none)
    (entity : String) (tableAlias : Option String) (atoms : List Atom) :
    (s.join kind hkind entity tableAlias atoms).Over chosen
      (others ++ atoms.filterMap Atom.column?) :=
  (h.setAlias entity tableAlias).insert_clause rfl rfl _

theorem Over.openGrouping (h : s.Over chosen others) : s.openGrouping.Over chosen others := by
  rw [Outline.openGrouping]
  by_cases hany : (s.blocks.any fun b => b.tag == .groupBy) = true
  · rwa [if_pos hany]
  · rw [if_neg hany]
    have happart : (Block.listing { key := s.nextKey, tag := .groupBy }).tag ≠ .select :=
      fun h => absurd (show Tag.groupBy = .select from h) (by decide)
    have hinsert := h.insert happart (show Tag.isOrder .select = false from rfl) 1
    rwa [Block.columns_listing, Listing.columns, List.filterMap_nil, List.append_nil] at hinsert

theorem Over.group (h : s.Over chosen others) {isFixed : Bool}
    (hopen : s.openGrouping.Open isFixed) (f : ColumnRef) :
    (s.openGrouping.enter .groupBy fun key => .column key f).Over chosen (others ++ [f]) := by
  refine h.openGrouping.modifyLast s.any_openGrouping (fun b hb htag => ?_)
    (fun b => Block.enter_tag) _
  have hgroup : b.tag = .groupBy := beq_iff_eq.1 htag
  have happart : b.tag ≠ .select := fun h => absurd (hgroup.symm.trans h) (by decide)
  refine ⟨happart, Block.columns_enter (Block.isListing_of_frame? (by rw [hgroup]; rfl)) ?_ _ f⟩
  exact Bool.eq_false_iff.2 fun hclosed => happart (hopen b hb hclosed).1

theorem Over.take (h : s.Over chosen others) (f : ColumnRef) :
    (s.enter .select fun key => .column key f).Over (chosen.take f) others := by
  obtain ⟨l, rest, hblocks, hl, hrest, rfl, hothers⟩ := h
  have hlast : SqlComposer.modifyLast (fun b => b.tag == .select)
      (Block.enter (.column s.nextKey f)) s.blocks =
        .listing (l.enter (.column s.nextKey f)) :: rest := by
    rw [hblocks]
    exact modifyLast_append_cons (l := []) (p := fun b : Block => b.tag == .select)
      (beq_iff_eq.2 hl) fun b hb => beq_eq_false_iff_ne.2 (hrest b hb)
  exact ⟨_, rest, hlast, hl, hrest, l.selection_enter s.nextKey f, hothers⟩

theorem Over.supply (h : s.Over chosen others) (fields : List ColumnRef) :
    (s.supply fields).Over (chosen.supply fields) others := by
  obtain ⟨l, rest, hblocks, hl, hrest, rfl, hothers⟩ := h
  rw [supply_eq hblocks]
  cases hclosed : l.isClosed with
  | true =>
    rw [if_pos rfl, Selection.supply_of_fixed hclosed]
    exact ⟨l, rest, hblocks, hl, hrest, rfl, hothers⟩
  | false =>
    rw [if_neg Bool.false_ne_true]
    exact ⟨_, rest, rfl, hl, hrest, Listing.selection_supplied hclosed s.nextKey fields, hothers⟩

theorem Over.closeSelect (h : s.Over chosen others) : s.closeSelect.Over chosen.fix others := by
  obtain ⟨l, rest, hblocks, hl, hrest, rfl, hothers⟩ := h
  have hkeep : rest.map (fun b => if b.tag == .select then b.close else b) = rest := by
    refine (List.map_congr_left fun b hb => ?_).trans rest.map_id
    rw [if_neg (by simpa using hrest b hb), id]
  refine ⟨{ l with isClosed := true }, rest, ?_, hl, hrest, rfl, hothers⟩
  rw [Outline.closeSelect, hblocks, List.map_cons, hkeep]
  simp [Block.tag, hl, Block.close]

end Outline

def Tree.selected (t : Tree) : List ColumnRef :=
  (t.partsOf .select).flatMap Part.fields

def Tree.columns (t : Tree) : List ColumnRef :=
  t.flatten.filterMap Part.field?

namespace Outline

variable {s : Outline} {chosen : Selection} {others : List ColumnRef}

theorem Over.selected (h : s.Over chosen others) : s.draft.toTree.selected = chosen.columns := by
  obtain ⟨l, rest, hblocks, hl, hrest, rfl, -⟩ := h
  have hnone : (rest.map Block.part).filter (fun p => p.tag == .select) = [] := by
    refine List.filter_eq_nil_iff.2 fun p hp => ?_
    obtain ⟨b, hb, rfl⟩ := List.mem_map.1 hp
    rw [Block.part_tag]
    simpa using hrest b hb
  have hselect : (((Block.listing l).part.tag == .select) : Bool) = true := by
    rw [Block.part_tag, Block.tag, hl]
    rfl
  rw [Tree.selected, Tree.partsOf, draft, hblocks, List.map_cons, List.filter_cons, if_pos hselect,
    hnone, List.flatMap_singleton, Part.fields, Block.part, Part.children, List.filterMap_map]
  rfl

theorem Over.columns (h : s.Over chosen others) :
    ∃ behind, behind.Perm others ∧ s.draft.toTree.columns = chosen.columns ++ behind := by
  obtain ⟨l, rest, hblocks, -, -, rfl, hothers⟩ := h
  refine ⟨_, hothers, ?_⟩
  rw [Tree.columns, Tree.flatten, draft, hblocks, Part.flattenAll_eq, List.flatMap_map,
    List.filterMap_flatMap, List.flatMap_cons]
  exact congrArg (· ++ rest.flatMap Block.columns) (Block.columns_listing l)

end Outline

end SqlComposer
