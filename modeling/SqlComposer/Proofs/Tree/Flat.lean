import SqlComposer.Proofs.Part.Stray

/-!
# Flat trees

A tree without groups. Insertions of leaves and removals leave it flat, and there is no list in it
that could be refused.
-/
namespace SqlComposer

namespace Part

variable {k : Key} {ps rest : List Part} {q : Part}

theorem takeNested?_of_flat (h : ∀ p ∈ ps, p.isGroup = false) : takeNested? k ps = none := by
  induction ps with
  | nil => rfl
  | cons p ps ih =>
    obtain ⟨hp, hps⟩ := List.forall_mem_cons.1 h
    cases p with
    | leaf =>
      rw [takeNested?, takeBelow?]
      simp only [ih hps, Option.map_none]
    | group => cases hp

theorem mem_of_takeDirect? (h : takeDirect? k ps = some (q, rest)) : q ∈ ps ∧ rest ⊆ ps := by
  induction ps generalizing rest with
  | nil => cases h
  | cons p ps ih =>
    rw [takeDirect?] at h
    split_ifs at h
    · cases h
      exact ⟨List.mem_cons_self, List.subset_cons_self _ _⟩
    · obtain ⟨⟨q', rest'⟩, htake, heq⟩ := Option.map_eq_some_iff.1 h
      cases heq
      obtain ⟨hq, hrest⟩ := ih htake
      exact ⟨List.mem_cons_of_mem p hq, List.cons_subset_cons p hrest⟩

end Part

namespace Tree

def IsFlat (t : Tree) : Prop :=
  ∀ p ∈ t.parts, p.isGroup = false

variable {t : Tree} {p : Part}

theorem IsFlat.flatten_eq (h : t.IsFlat) : t.flatten = t.parts := by
  have hleaf : t.parts.flatMap Part.flatten = t.parts.flatMap fun p => [p] := by
    refine List.flatMap_congr fun p hp => ?_
    cases p with
    | leaf => rfl
    | group => cases h _ hp
  rw [flatten, Part.flattenAll_eq, hleaf, List.flatMap_singleton']

theorem IsFlat.not_stray (h : t.IsFlat) : ∀ g ∈ t.flatten, ¬g.isStray = true := by
  intro g hg
  rw [h.flatten_eq] at hg
  cases g with
  | leaf => exact Bool.false_ne_true
  | group => cases h _ hg

theorem IsFlat.of_perm {ps : List Part} (h : t.IsFlat) (hp : p.isGroup = false)
    (hps : ps.Perm (t.parts ++ [p])) : ∀ q ∈ ps, q.isGroup = false := by
  intro q hq
  obtain hq | hq := List.mem_append.1 (hps.mem_iff.1 hq)
  · exact h q hq
  · exact List.mem_singleton.1 hq ▸ hp

theorem IsFlat.add (h : t.IsFlat) (hp : p.isGroup = false) : (t.add p).IsFlat :=
  h.of_perm hp (.refl _)

theorem IsFlat.addAfter (h : t.IsFlat) (hp : p.isGroup = false) (tag : Tag) :
    (t.addAfter p tag).IsFlat :=
  h.of_perm hp (insertBehind_perm _ p t.parts)

theorem IsFlat.addBefore (h : t.IsFlat) (hp : p.isGroup = false) (tag : Tag) :
    (t.addBefore p tag).IsFlat := by
  rw [Tree.addBefore]
  split_ifs
  · exact h.of_perm hp (insertAhead_perm _ p t.parts)
  · exact h.of_perm hp (List.perm_append_singleton p t.parts).symm

theorem IsFlat.remove {t' : Tree} (h : t.IsFlat) {key : Key} (hremove : t.remove? key = some (p, t')) :
    p.isGroup = false ∧ t'.IsFlat := by
  obtain ⟨⟨q, rest⟩, htake, heq⟩ := Option.map_eq_some_iff.1 hremove
  cases heq
  -- nothing is nested, so the part was taken from the top
  have hdirect : Part.takeDirect? key t.parts = some (p, rest) := by
    rw [Part.take?, Part.takeNested?_of_flat h] at htake
    cases hd : Part.takeDirect? key t.parts with
    | none =>
      rw [hd] at htake
      cases htake
    | some taken =>
      rw [hd] at htake
      exact htake
  obtain ⟨hp, hrest⟩ := Part.mem_of_takeDirect? hdirect
  exact ⟨h p hp, fun q hq => h q (hrest hq)⟩

end Tree

end SqlComposer
