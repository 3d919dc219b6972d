import SqlComposer.Proofs.Draft.Closed
import SqlComposer.Proofs.Select.Lasting

/-!
# A select list that is fixed

Fixing the result of a query closes its select list, and then neither further calls nor compiling
the query for another result change the list.
-/
namespace SqlComposer

theorem Listing.enter_of_closed {l : Listing} (hclosed : l.isClosed = true) (e : Entry) :
    l.enter e = l := by
  cases l
  simp_all [Listing.enter]

namespace Outline

variable {s : Outline} {l : Listing}

structure Fixes (s : Outline) (l : Listing) : Prop where
  isClosed : l.isClosed = true
  blocks : ∃ rest, s.blocks = .listing l :: rest ∧ l.tag = .select ∧
    ∀ b ∈ rest, b.tag ≠ .select

theorem Fixes.of_has (hs : s.Headed) (hclosed : l.isClosed = true) (htag : l.tag = .select)
    (hl : s.Has (· = .listing l)) : s.Fixes l := by
  obtain ⟨l', c, rest, hblocks, -, hc, hrest⟩ := hs.blocks
  have hothers : ∀ b ∈ Block.clause c :: rest, b.tag ≠ .select :=
    List.forall_mem_cons.2 ⟨fun h => absurd (hc.symm.trans h) nofun, fun b hb => (hrest b hb).1⟩
  obtain ⟨b, hb, rfl⟩ := hl
  rw [hblocks] at hb
  obtain hb | hb := List.mem_cons.1 hb
  · cases hb
    exact ⟨hclosed, _, hblocks, htag, hothers⟩
  · exact absurd htag (hothers _ hb)

theorem Fixes.has (h : s.Fixes l) : s.Has (· = .listing l) := by
  obtain ⟨rest, hblocks, -, -⟩ := h.blocks
  exact ⟨_, hblocks ▸ List.mem_cons_self, rfl⟩

theorem Fixes.supply_eq (h : s.Fixes l) (fields : List ColumnRef) : s.supply fields = s := by
  obtain ⟨rest, hblocks, -, -⟩ := h.blocks
  rw [Outline.supply_eq hblocks, if_pos h.isClosed]

theorem Fixes.partsOf_select (h : s.Fixes l) :
    s.draft.partsOf .select = [(Block.listing l).part] := by
  obtain ⟨rest, hblocks, htag, hrest⟩ := h.blocks
  have hothers : (rest.map Block.part).filter (fun p => p.tag == .select) = [] := by
    refine List.filter_eq_nil_iff.2 fun p hp => ?_
    obtain ⟨b, hb, rfl⟩ := List.mem_map.1 hp
    simpa using hrest b hb
  rw [Tree.partsOf, Outline.draft, hblocks, List.map_cons,
    List.filter_cons_of_pos (by simp [Block.tag, htag]), hothers]

theorem exists_fixes (hs : s.Headed) : ∃ l, s.closeSelect.Fixes l := by
  obtain ⟨l, c, rest, hblocks, hl, -⟩ := hs.blocks
  have hself : ((Block.listing l).tag == .select) = true := beq_iff_eq.2 hl
  refine ⟨{ l with isClosed := true }, .of_has hs.closeSelect rfl hl ⟨_, ?_, rfl⟩⟩
  rw [closeSelect, hblocks, List.map_cons, if_pos hself]
  exact List.mem_cons_self

end Outline

namespace Select

variable {q q' : Select} {s : Outline} {l : Listing}

theorem Laid.fixes_layOut (h : Laid q s) (hs : s.Fixes l) {call : Call}
    (hcall : (call.apply q).outcome = .ok q') : (call.layOut q s).Fixes l := by
  obtain ⟨rest, hblocks, htag, hrest⟩ := hs.blocks
  refine .of_has (h.step hcall).headed hs.isClosed htag ?_
  cases hforType : call.isForType with
  | false =>
    refine h.has (fun a hb => ?_) (fun e hb => ?_) hs.has call fun hfixes => ?_
    · rw [hb]
      rfl
    · rw [hb, Block.enter, Listing.enter_of_closed hs.isClosed]
    · rw [hforType] at hfixes
      cases hfixes
  | true =>
    cases call with
    | forType result =>
      -- fixing the list again supplies nothing, and it is closed already
      rw [Call.layOut, hs.supply_eq]
      refine ⟨_, List.mem_map_of_mem (hblocks ▸ List.mem_cons_self), ?_⟩
      rw [if_pos (show ((Block.listing l).tag == .select) = true from beq_iff_eq.2 htag),
        Block.close, ← hs.isClosed]
    | _ => cases hforType

theorem Laid.fixes_run (h : Laid q s) (hs : s.Fixes l) {calls : List Call}
    (hrun : (q.run calls).outcome = .ok q') : ∃ s', Laid q' s' ∧ s'.Fixes l :=
  run_induction (I := fun _ q => ∃ s, Laid q s ∧ s.Fixes l) []
    (fun ⟨_, h, hs⟩ hcall => ⟨_, h.step hcall, h.fixes_layOut hs hcall⟩) ⟨s, h, hs⟩ hrun

theorem exists_fixed {c : Compiler} {o : Opening} {before after : List Call} {result : Entity}
    (hbuilt : (built c o before).outcome = .ok q)
    (hrun : ((q.forType result).run after).outcome = .ok q') :
    ∃ list, list.isClosed = true ∧ (q.forType result).draft.partsOf .select = [list] ∧
      q'.draft.partsOf .select = [list] ∧
      ∀ other, ∃ compiled, (q'.compileAs other).outcome = .ok compiled ∧
        compiled.tree.partsOf .select = [list] := by
  obtain ⟨s, h⟩ := (Laid.start c o.entity o.tableAlias).run (built_eq_ok hbuilt).2
  obtain ⟨l, hl⟩ := Outline.exists_fixes (h.headed.supply (q.projection result))
  obtain ⟨s', h', hl'⟩ := (h.forType result).fixes_run hl hrun
  refine ⟨(Block.listing l).part, hl.isClosed, ?_, ?_, fun other => ?_⟩
  · rw [(h.forType result).draft_eq]
    exact hl.partsOf_select
  · rw [h'.draft_eq]
    exact hl'.partsOf_select
  · refine ⟨⟨s'.sql q'.compiler, s'.draft.toTree⟩, ?_, hl'.partsOf_select⟩
    rw [h'.outcome_compileAs, hl'.supply_eq]

end Select

/-- A group that is closed stays closed and keeps its children, whatever edits follow that take no
part out. So the select list of a query whose result is fixed is the same list after any calls, and
in the statement for any result. -/
theorem closed_groups_keep_children :
    (∀ (start : Draft) (before after : List Edit) (g : Part), start.parts = [] →
      Edit.FitAll start (before ++ after) → (∀ edit ∈ after, edit.isRemoval = false) →
      g ∈ (Edit.run start before).flatten → g.isClosed = true →
      ∃ g', (Edit.run start (before ++ after)).find? g.key = some g' ∧ g.Remains g') ∧
    ∀ (c : Compiler) (o : Select.Opening) (before after : List Select.Call) (result : Entity)
      (q q' : Select), (Select.built c o before).outcome = .ok q →
      ((q.forType result).run after).outcome = .ok q' →
      ∃ list, list.isClosed = true ∧ (q.forType result).draft.partsOf .select = [list] ∧
        q'.draft.partsOf .select = [list] ∧
        ∀ other, ∃ compiled, (q'.compileAs other).outcome = .ok compiled ∧
          compiled.tree.partsOf .select = [list] :=
  ⟨fun _ _ _ _ hempty hfit hafter hg hclosed => Edit.exists_closed hempty hfit hafter hg hclosed,
    fun _ _ _ _ _ _ _ hbuilt hrun => Select.exists_fixed hbuilt hrun⟩

/-- A closed group below a restriction takes neither a part by its key nor by its tag, and a fixed
select list takes neither a mapped column nor those of another result. -/
theorem closed_groups_keep_children_nested :
    let g : Part :=
      .group { key := 2, tag := .andClause } (.clause none none) [.text 3 .plain "Paid"] true
    let before : List Edit := [.makeParts 6, .add (.clause 1 .whereClause none none [g])]
    let after : List Edit :=
      [.push 2 (.text 4 .plain "Late"), .addToLast (.text 5 .plain "Open") .andClause,
        .push 1 (.text 6 .plain "Due"), .close 1]
    let customer : Entity := ⟨"Customer", [⟨"Id", .int, false⟩, ⟨"Name", .string, true⟩]⟩
    let names : Entity := ⟨"Names", [⟨"Name", .string, true⟩]⟩
    (Edit.FitAll .empty (before ++ after) ∧
      ∃ g', (Edit.run .empty (before ++ after)).find? 2 = some g' ∧ g.Remains g') ∧
    ∃ q q', (Select.built {} (.from customer) []).outcome = .ok q ∧
      ((q.forType names).run [.map (.col "Id"), .forType customer]).outcome = .ok q' ∧
      ∃ list, (q.forType names).draft.partsOf .select = [list] ∧
        q'.draft.partsOf .select = [list] ∧
        ∃ compiled, (q'.compileAs customer).outcome = .ok compiled ∧
          compiled.tree.partsOf .select = [list] := by
  intro g before after customer names
  have hfit : Edit.FitAll .empty (before ++ after) := by decide
  have hg : g ∈ (Edit.run .empty before).flatten := .tail _ (.head _)
  refine ⟨⟨hfit, closed_groups_keep_children.1 .empty before after g rfl hfit (by decide) hg rfl⟩,
    ?_⟩
  obtain ⟨q, hq⟩ : ∃ q, (Select.built {} (.from customer) []).outcome = .ok q := ⟨_, rfl⟩
  obtain ⟨q', hq'⟩ : ∃ q', ((q.forType names).run [.map (.col "Id"), .forType customer]).outcome =
      .ok q' := by
    cases hq
    exact ⟨_, rfl⟩
  obtain ⟨list, -, hfixed, hlater, hcompiled⟩ :=
    closed_groups_keep_children.2 {} (.from customer) [] _ names q q' hq hq'
  exact ⟨q, q', hq, hq', list, hfixed, hlater, hcompiled customer⟩

end SqlComposer
