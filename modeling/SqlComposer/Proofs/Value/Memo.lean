import SqlComposer.Value.Deferred
import Mathlib.Data.List.Nodup

/-!
# Functions that have run

A memo holds the cells that were read, and for each of them its function has run once. Values of
different cells may have the same function, which then runs for each of the cells.
-/
namespace SqlComposer

/-- Among the values, the function of this one computes its cell and no other. -/
def Deferred.Owns (d : Deferred) (ds : List Deferred) : Prop :=
  ∀ d' ∈ ds, d'.function = d.function ↔ d'.cell = d.cell

instance (d : Deferred) (ds : List Deferred) : Decidable (d.Owns ds) :=
  inferInstanceAs (Decidable (∀ d' ∈ ds, _ ↔ _))

namespace Memo

/-- The functions of these values have run, each once and for a cell of its own, and no others. -/
structure Ran (m : Memo) (ran : List Deferred) : Prop where
  calls : m.calls = ran.map Deferred.function
  evaluated : m.evaluated = ran.map Deferred.cell
  nodup : m.evaluated.Nodup

/-- Some of the values have been read, and a function has run iff its value was read. -/
structure AtMostOnce (m : Memo) (ds : List Deferred) : Prop where
  ran : ∃ ran ⊆ ds, m.Ran ran
  callCount : ∀ d ∈ ds, d.Owns ds → m.callCount d.function = if m.isEvaluated d then 1 else 0

/-- All of the values have been read and no others, and their functions have run once. -/
structure ExactlyOnce (m : Memo) (ds : List Deferred) : Prop where
  ran : ∃ ran ⊆ ds, m.Ran ran
  evaluated : ∀ d, m.isEvaluated d = true ↔ d.cell ∈ ds.map Deferred.cell
  callCount : ∀ d ∈ ds, d.Owns ds → m.callCount d.function = 1

variable {m : Memo} {ran ds : List Deferred} {d : Deferred}

theorem ran_empty : empty.Ran [] :=
  ⟨rfl, rfl, List.nodup_nil⟩

theorem Ran.read (h : m.Ran ran) (d : Deferred) : ∃ ran', ran' ⊆ d :: ran ∧ (m.read d).Ran ran' := by
  rw [Memo.read]
  split_ifs with hd
  · exact ⟨ran, List.subset_cons_self d ran, h⟩
  · refine ⟨d :: ran, List.Subset.refl _, ?_, ?_, List.nodup_cons.2 ⟨hd, h.nodup⟩⟩
    · rw [List.map_cons, h.calls]
    · rw [List.map_cons, h.evaluated]

theorem Ran.foldl_read (h : m.Ran ran) (ds : List Deferred) :
    ∃ ran', ran' ⊆ ran ++ ds ∧ (ds.foldl Memo.read m).Ran ran' := by
  induction ds generalizing m ran with
  | nil => exact ⟨ran, List.subset_append_left ran [], h⟩
  | cons d ds ih =>
    obtain ⟨ran', hsub, hread⟩ := h.read d
    obtain ⟨ran'', hsub', hrest⟩ := ih hread
    refine ⟨ran'', fun x hx => ?_, hrest⟩
    rcases List.mem_append.1 (hsub' hx) with hx | hx
    · rcases List.mem_cons.1 (hsub hx) with rfl | hx
      · exact List.mem_append_right _ List.mem_cons_self
      · exact List.mem_append_left _ hx
    · exact List.mem_append_right _ (List.mem_cons_of_mem d hx)

theorem mem_evaluated_read {c : Nat} : c ∈ (m.read d).evaluated ↔ c ∈ m.evaluated ∨ c = d.cell := by
  rw [Memo.read]
  split_ifs with hd
  · exact ⟨Or.inl, fun h => h.elim id fun h => h ▸ hd⟩
  · exact List.mem_cons.trans or_comm

theorem mem_evaluated_foldl_read {c : Nat} :
    c ∈ (ds.foldl Memo.read m).evaluated ↔ c ∈ m.evaluated ∨ c ∈ ds.map Deferred.cell := by
  induction ds generalizing m with
  | nil => simp
  | cons d ds ih => rw [List.foldl_cons, ih, mem_evaluated_read, List.map_cons, List.mem_cons, or_assoc]

theorem Ran.callCount_eq (h : m.Ran ran) (hran : ran ⊆ ds) (hd : d.Owns ds) :
    m.callCount d.function = if m.isEvaluated d then 1 else 0 := by
  have hcells : (ran.map Deferred.function).count d.function =
      (ran.map Deferred.cell).count d.cell := by
    rw [List.count, List.count, List.countP_map, List.countP_map]
    refine List.countP_congr fun x hx => ?_
    simpa using hd x (hran hx)
  rw [callCount, h.calls, hcells, ← h.evaluated, h.nodup.count]
  simp [isEvaluated]

theorem Ran.atMostOnce (h : m.Ran ran) (hran : ran ⊆ ds) : m.AtMostOnce ds :=
  ⟨⟨ran, hran, h⟩, fun _ _ hd => h.callCount_eq hran hd⟩

theorem AtMostOnce.exactlyOnce (h : m.AtMostOnce ds)
    (hall : ∀ d ∈ ds, d.cell ∈ m.evaluated) : m.ExactlyOnce ds where
  ran := h.ran
  evaluated d := by
    obtain ⟨ran, hran, h⟩ := h.ran
    rw [isEvaluated, decide_eq_true_iff]
    constructor
    · intro hd
      rw [h.evaluated] at hd
      exact List.map_subset _ hran hd
    · intro hd
      obtain ⟨d', hd', hcell⟩ := List.mem_map.1 hd
      exact hcell ▸ hall d' hd'
  callCount d hd howns := by
    rw [h.callCount d hd howns, if_pos]
    exact decide_eq_true (hall d hd)

end Memo

end SqlComposer
