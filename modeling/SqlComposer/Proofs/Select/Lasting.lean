import SqlComposer.Proofs.Outline.Text
import SqlComposer.Proofs.Select.Laid

/-!
# What a call leaves behind

A condition or ordering that a call put into the outline stays there whatever calls follow. A
column of the select list stays until the list is fixed, and then if it is requested.
-/
namespace SqlComposer

namespace Outline

variable {s : Outline}

theorem has_nest {anchor : Block → Bool}
    (hclause : ∀ b ∈ s.blocks, anchor b = true → b.isClause = true) (joint : Joint)
    (atoms : List Atom) :
    (s.nest anchor joint atoms).Has (Block.Says joint.tag none none atoms) := by
  rw [nest]
  by_cases hany : s.blocks.any anchor = true
  · obtain ⟨l, b, r, hblocks, hb, hr⟩ := exists_last_of_any hany
    have hmem : b ∈ s.blocks := by simp [hblocks]
    rw [if_pos hany, hblocks]
    simp only [modifyLast_append_cons hb hr]
    cases b with
    | text | listing => cases hclause _ hmem hb
    | clause c =>
      refine ⟨_, List.mem_append_right _ List.mem_cons_self, c.nest ⟨s.nextKey, joint, atoms⟩, rfl,
        .inr ⟨rfl, ⟨s.nextKey, joint, atoms⟩, ?_, rfl, rfl⟩⟩
      exact List.mem_append_right _ List.mem_cons_self
  · rw [if_neg hany]
    exact has_add ⟨_, rfl, .inl ⟨rfl, rfl, rfl, rfl⟩⟩ _

theorem has_nest_tag (tags : Tag → Bool)
    (htags : ∀ t, tags t = true → t.frame? = none ∧ ∀ v : Verb, t ≠ v.tag) (joint : Joint)
    (atoms : List Atom) :
    (s.nest (fun b => tags b.tag) joint atoms).Has (Block.Says joint.tag none none atoms) :=
  has_nest (fun _ _ hb => Block.isClause_of_frame? (htags _ hb).1 (htags _ hb).2) joint atoms

theorem startsOrder_clause (t : Tag) (ht : t.startsOrder = true) :
    t.frame? = none ∧ ∀ v : Verb, t ≠ v.tag := by
  obtain rfl | rfl := startsOrder_iff.1 ht <;> exact ⟨rfl, fun v => by cases v <;> decide⟩

theorem whereClause_clause (t : Tag) (ht : (t == .whereClause) = true) :
    t.frame? = none ∧ ∀ v : Verb, t ≠ v.tag := by
  rw [beq_iff_eq.1 ht]
  exact ⟨rfl, fun v => by cases v <;> decide⟩

theorem has_restrict (s : Outline) (before : Tag → Bool) (atoms : List Atom) :
    (s.restrict before atoms).Has (Block.Says .whereClause none none atoms) ∨
      (s.restrict before atoms).Has (Block.Says .andClause none none atoms) := by
  rw [restrict]
  by_cases hany : (s.blocks.any fun b => b.tag == .whereClause) = true
  · rw [if_pos hany]
    exact .inr (has_nest_tag (fun t => t == .whereClause) whereClause_clause .and atoms)
  · rw [if_neg hany]
    exact .inl (has_insert ⟨_, rfl, .inl ⟨rfl, rfl, rfl, rfl⟩⟩ _ _)

theorem has_order (s : Outline) {first : Tag} (hfirst : first.frame? = none) (next : Joint)
    (atoms : List Atom) :
    (s.order first hfirst next atoms).Has (Block.Says first none none atoms) ∨
      (s.order first hfirst next atoms).Has (Block.Says next.tag none none atoms) := by
  rw [order]
  by_cases hany : (s.blocks.any fun b => b.tag.startsOrder) = true
  · rw [if_pos hany]
    exact .inr (has_nest_tag Tag.startsOrder startsOrder_clause next atoms)
  · rw [if_neg hany]
    exact .inl (has_add ⟨_, rfl, .inl ⟨rfl, rfl, rfl, rfl⟩⟩ _)

theorem has_join (s : Outline) {kind : Tag} (hkind : kind.frame? = none) (entity : String)
    (tableAlias : Option String) (atoms : List Atom) :
    (s.join kind hkind entity tableAlias atoms).Has
      (Block.Says kind (some entity) tableAlias atoms) :=
  has_insert ⟨_, rfl, .inl ⟨rfl, rfl, rfl, rfl⟩⟩ _ _

theorem isClause_of_target (hs : s.Keyed) {target : Option Key}
    (htarget : ∀ k, target = some k → s.Has (Block.ClauseAt k)) :
    ∀ b ∈ s.blocks, (some b.key == target) = true → b.isClause = true := by
  intro b hb hkey
  obtain ⟨b', hb', hclause, hkey'⟩ := htarget b.key (beq_iff_eq.1 hkey).symm
  rwa [hs.block_eq hb hb' b.key_mem_keys (hkey' ▸ b'.key_mem_keys)]

theorem has_nest_key (hs : s.Keyed) {target : Option Key}
    (htarget : ∀ k, target = some k → s.Has (Block.ClauseAt k)) (joint : Joint)
    (atoms : List Atom) :
    (s.nest (fun b => some b.key == target) joint atoms).Has
      (Block.Says joint.tag none none atoms) :=
  has_nest (isClause_of_target hs htarget) joint atoms

theorem has_enter {tag : Tag} {f : ColumnRef} (htag : tag.frame?.isSome)
    (hany : (s.blocks.any fun b => b.tag == tag) = true)
    (hopen : ∀ b ∈ s.blocks, b.tag = tag → b.isClosed = false) :
    (s.enter tag fun key => .column key f).Has fun b => b.Lists tag f ∧ b.isClosed = false := by
  obtain ⟨l, b, r, hblocks, hb, hr⟩ := exists_last_of_any hany
  have hb' : b.tag = tag := beq_iff_eq.1 hb
  have hclosed := hopen b (by simp [hblocks]) hb'
  have hlisting := Block.isListing_of_frame? (b := b) (hb' ▸ htag)
  cases b with
  | text | clause => cases hlisting
  | listing x =>
    refine ⟨.listing (x.enter (.column s.nextKey f)), ?_, ⟨_, s.nextKey, rfl, hb', ?_⟩, hclosed⟩
    · rw [enter, hblocks]
      simp only [modifyLast_append_cons (p := fun b : Block => b.tag == tag) hb hr]
      exact List.mem_append_right _ List.mem_cons_self
    · rw [Listing.enter, show x.isClosed = false from hclosed]
      exact List.mem_append_right _ List.mem_cons_self

/-- Only the select list is closed, and only once it is fixed. -/
def Open (s : Outline) (isFixed : Bool) : Prop :=
  s.Each fun b => b.isClosed = true → b.tag = .select ∧ isFixed = true

theorem Open.enter {isFixed : Bool} (h : s.Open isFixed) (tag : Tag) (e : Key → Entry) :
    (s.enter tag e).Open isFixed :=
  Each.enter h (fun _ hb => by simpa using hb) tag

theorem Open.openGrouping {isFixed : Bool} (h : s.Open isFixed) : s.openGrouping.Open isFixed :=
  Each.openGrouping h nofun

theorem Open.has_grouped {isFixed : Bool} (h : s.Open isFixed) (f : ColumnRef) :
    (s.openGrouping.enter .groupBy fun key => .column key f).Has (Block.Lists .groupBy f) := by
  have hopen : ∀ b ∈ s.openGrouping.blocks, b.tag = .groupBy → b.isClosed = false := by
    intro b hb htag
    refine Bool.eq_false_iff.2 fun hclosed => ?_
    obtain ⟨hselect, -⟩ := h.openGrouping b hb hclosed
    rw [htag] at hselect
    cases hselect
  obtain ⟨b, hb, hlists, -⟩ := has_enter (f := f) rfl s.any_openGrouping hopen
  exact ⟨b, hb, hlists⟩

theorem Open.fix {isFixed : Bool} (h : s.Open isFixed) (fields : List ColumnRef) :
    (s.supply fields).closeSelect.Open true := by
  have hfixed : s.Open true := fun b hb hclosed => ⟨(h b hb hclosed).1, rfl⟩
  have hsupply : (s.supply fields).Open true := Each.supply hfixed fun _ hl => hl
  exact Each.closeSelect hsupply fun _ htag _ => ⟨(Block.close_tag _).trans htag, rfl⟩

end Outline

namespace Block

def Shows (f : ColumnRef) (isClosed : Bool) (b : Block) : Prop :=
  b.Lists .select f ∧ b.isClosed = isClosed

end Block

def ColumnRef.AnswersTo (f : ColumnRef) (names : List String) : Prop :=
  f.field ∈ names ∨ ∃ name ∈ names, f.resultAlias = some name

theorem ColumnRef.AnswersTo.stays {f : ColumnRef} {fields : List ColumnRef}
    (h : f.AnswersTo (fields.map ColumnRef.field)) (key : Key) :
    Draft.stays fields (Entry.part (.column key f)) = true := by
  rw [Draft.stays, Bool.or_eq_true]
  refine .inr (List.any_eq_true.2 ?_)
  obtain h | ⟨name, hname, halias⟩ := h
  · obtain ⟨r, hr, hfield⟩ := List.mem_map.1 h
    exact ⟨r, hr, by simp [Draft.covers, Entry.part, Part.field, Part.field?, hfield]⟩
  · obtain ⟨r, hr, rfl⟩ := List.mem_map.1 hname
    exact ⟨r, hr, by simp [Draft.covers, Entry.part, Part.field, Part.field?, halias]⟩

namespace Outline

variable {s : Outline} {f : ColumnRef} {isClosed : Bool}

theorem has_supply (hhead : s.Headed) (h : s.Has (Block.Shows f isClosed))
    {fields : List ColumnRef}
    (hf : isClosed = false → f.AnswersTo (fields.map ColumnRef.field)) :
    (s.supply fields).Has (Block.Shows f isClosed) := by
  obtain ⟨l, c, rest, hblocks, hl, hc, hrest⟩ := hhead.blocks
  obtain ⟨b, hb, ⟨l', key, rfl, htag, hentry⟩, hclosed⟩ := h
  obtain rfl : l' = l := by
    rw [hblocks] at hb
    obtain hb | hb := List.mem_cons.1 hb
    · exact Block.listing.inj hb
    · obtain hb | hb := List.mem_cons.1 hb
      · cases hb
      · exact absurd htag (hrest _ hb).1
  rw [supply_eq hblocks]
  cases hclosed' : l'.isClosed with
  | true => exact ⟨_, hb, ⟨l', key, rfl, htag, hentry⟩, hclosed⟩
  | false =>
    have hstays := (hf (hclosed.symm.trans hclosed')).stays key
    refine ⟨_, List.mem_cons_self, ⟨_, key, rfl, htag, ?_⟩, hclosed⟩
    exact List.mem_append_left _ (List.mem_filter.2 ⟨hentry, hstays⟩)

theorem Has.fixed (h : s.Has (Block.Shows f isClosed)) :
    s.closeSelect.Has (Block.Shows f true) := by
  obtain ⟨b, hb, ⟨l, key, rfl, htag, hentry⟩, -⟩ := h
  have hmem := List.mem_map_of_mem (f := fun b => if b.tag == .select then b.close else b) hb
  rw [if_pos (show ((Block.listing l).tag == .select) = true from beq_iff_eq.2 htag)] at hmem
  exact ⟨_, hmem, ⟨_, key, rfl, htag, hentry⟩, rfl⟩

end Outline

namespace Select

def Call.isForType : Call → Bool
  | .forType _ => true
  | _ => false

variable {q q' : Select} {s : Outline} {P : Block → Prop}

theorem Laid.outcome_compileAs (h : Laid q s) (result : Entity) :
    (q.compileAs result).outcome =
      .ok ⟨(s.supply (q.projection result)).sql q.compiler,
        (s.supply (q.projection result)).draft.toTree⟩ := by
  rw [compileAs, h.draft_eq, Outline.draft_supply h.keyed h.headed]
  exact Outline.outcome_compile _ _

/-- A property that growing keeps outlasts every call but one that fixes the select list, and that
too if no select list has it. -/
theorem Laid.has (h : Laid q s) (hnest : ∀ {b} a, P b → P (b.nest a))
    (henter : ∀ {b} e, P b → P (b.enter e)) (hs : s.Has P) (call : Call)
    (hapart : call.isForType = true → ∀ {b}, P b → b.tag ≠ .select) :
    (call.layOut q s).Has P := by
  cases call with
  | join | joinAs => exact hs.join _ _ _ _
  | filter => exact hs.restrict hnest _ _
  | andFilter | orFilter | thenBy => exact hs.nest hnest _ _ _
  | orderBy => exact hs.order hnest _ _ _
  | groupBy field =>
    rw [Call.layOut]
    cases q.scope.field? field with
    | none => exact hs
    | some f => exact hs.openGrouping.enter henter _ _
  | map | mapAs | mapWith =>
    simp only [Call.layOut]
    split
    · exact hs.enter henter _ _
    · exact hs
  | ignore => exact hs
  | forType => exact (hs.supply h.headed (hapart rfl) _).closeSelect (hapart rfl)

theorem Laid.lasts (h : Laid q s) (hP : Block.Lasting P) (hs : s.Has P) (call : Call) :
    (call.layOut q s).Has P :=
  h.has hP.nest hP.enter hs call fun _ => hP.apart

theorem open_layOut_of_not_forType (q : Select) {isFixed : Bool} (hs : s.Open isFixed) {call : Call}
    (hcall : call.isForType = false) : (call.layOut q s).Open isFixed := by
  have hnest {b : Block} (a : Addition)
      (hb : b.isClosed = true → b.tag = .select ∧ isFixed = true) :
      (b.nest a).isClosed = true → (b.nest a).tag = .select ∧ isFixed = true := by
    simpa using hb
  have hopen (c : Clause) :
      (Block.clause c).isClosed = true → (Block.clause c).tag = .select ∧ isFixed = true :=
    fun h => absurd h Bool.false_ne_true
  cases call with
  | join | joinAs => exact Outline.Each.join hs _ fun _ => hopen _
  | filter => exact Outline.Each.restrict hs (fun _ => hnest _) (fun _ _ _ _ => hopen _) _
  | andFilter | orFilter | thenBy =>
    exact Outline.Each.nest hs (fun _ => hnest _) (fun _ => hopen _) _
  | orderBy d =>
    exact Outline.Each.order hs _ (by cases d <;> decide) (fun _ => hnest _)
      fun _ _ _ _ => hopen _
  | groupBy field =>
    simp only [Call.layOut]
    cases q.scope.field? field with
    | none => exact hs
    | some f => exact hs.openGrouping.enter _ _
  | map | mapAs | mapWith =>
    simp only [Call.layOut]
    split
    · exact hs.enter _ _
    · exact hs
  | ignore => exact hs
  | forType => cases hcall

theorem open_layOut (q : Select) {isFixed : Bool} (hs : s.Open isFixed) (call : Call) :
    (call.layOut q s).Open (isFixed || call.isForType) := by
  cases hcall : call.isForType with
  | false =>
    rw [Bool.or_false]
    exact open_layOut_of_not_forType q hs hcall
  | true =>
    cases call with
    | forType =>
      rw [Bool.or_true]
      exact hs.fix _
    | _ => cases hcall

end Select

end SqlComposer
