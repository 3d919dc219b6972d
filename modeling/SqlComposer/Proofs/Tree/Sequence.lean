import SqlComposer.Proofs.Tree

/-!
# The sequence of a tree

The parts of a tree, depth first, each without what is below it and without its seal. A change of
one group is local to the place of the group in the sequence: what is written ahead of it and
behind it does not depend on the change.
-/
namespace SqlComposer

theorem filter_eq_of_sublist {α : Type} {P : α → Bool} {kept as : List α} (hs : kept.Sublist as)
    (hnodup : as.Nodup) (hP : ∀ a ∈ as, P a = true ↔ a ∈ kept) : as.filter P = kept := by
  induction hs with
  | slnil => rfl
  | cons a hs ih =>
    rw [List.nodup_cons] at hnodup
    have ha : ¬P a = true := fun h =>
      hnodup.1 (hs.subset ((hP a List.mem_cons_self).1 h))
    rw [List.filter_cons_of_neg ha]
    exact ih hnodup.2 fun b hb => hP b (List.mem_cons_of_mem _ hb)
  | cons_cons a hs ih =>
    rw [List.nodup_cons] at hnodup
    have ha : P a = true := (hP a List.mem_cons_self).2 List.mem_cons_self
    rw [List.filter_cons_of_pos ha]
    congr 1
    refine ih hnodup.2 fun b hb => ?_
    have hne : b ≠ a := fun heq => hnodup.1 (heq ▸ hb)
    rw [hP b (List.mem_cons_of_mem _ hb), List.mem_cons, or_iff_right hne]

namespace Part

variable {k : Key} {p q : Part} {ps qs : List Part}

/-- A part without what is below it and without its seal. -/
def bare : Part → Part
  | .leaf h content => .leaf h content
  | .group h shape _ _ => .group h shape [] false

def sequence (p : Part) : List Part :=
  p.flatten.map bare

def sequenceAll (ps : List Part) : List Part :=
  (flattenAll ps).map bare

def keys (p : Part) : List Key :=
  p.flatten.map key

def keysAll (ps : List Part) : List Key :=
  (flattenAll ps).map key

@[simp] theorem key_bare (p : Part) : p.bare.key = p.key := by
  cases p <;> rfl

@[simp] theorem sequenceAll_nil : sequenceAll [] = [] := rfl

@[simp] theorem keysAll_nil : keysAll [] = [] := rfl

theorem sequence_eq (p : Part) : p.sequence = p.bare :: sequenceAll p.children := by
  rw [sequence, flatten_eq, List.map_cons, sequenceAll]

theorem sequenceAll_cons (p : Part) (ps : List Part) :
    sequenceAll (p :: ps) = p.sequence ++ sequenceAll ps := by
  rw [sequenceAll, flattenAll, List.map_append, sequence, sequenceAll]

theorem sequenceAll_append (ps qs : List Part) :
    sequenceAll (ps ++ qs) = sequenceAll ps ++ sequenceAll qs := by
  rw [sequenceAll, flattenAll_append, List.map_append, sequenceAll, sequenceAll]

theorem map_key_sequenceAll (ps : List Part) : (sequenceAll ps).map key = keysAll ps := by
  rw [sequenceAll, List.map_map, keysAll]
  exact List.map_congr_left fun p _ => key_bare p

theorem keys_eq (p : Part) : p.keys = p.key :: keysAll p.children := by
  rw [keys, flatten_eq, List.map_cons, keysAll]

theorem keysAll_cons (p : Part) (ps : List Part) : keysAll (p :: ps) = p.keys ++ keysAll ps := by
  rw [keysAll, flattenAll, List.map_append, keys, keysAll]

theorem sequenceAll_sublist {ps qs : List Part} (h : ps.Sublist qs) :
    (sequenceAll ps).Sublist (sequenceAll qs) := by
  induction h with
  | slnil => exact .refl _
  | cons p _ ih =>
    rw [sequenceAll_cons]
    exact ih.trans (List.sublist_append_right _ _)
  | cons_cons p _ ih =>
    rw [sequenceAll_cons, sequenceAll_cons]
    exact ih.append_left _

theorem sequenceAll_map {f : Part → Part} (hf : ∀ p : Part, (f p).sequence = p.sequence)
    (ps : List Part) : sequenceAll (ps.map f) = sequenceAll ps := by
  induction ps with
  | nil => rfl
  | cons p ps ih => rw [List.map_cons, sequenceAll_cons, sequenceAll_cons, hf, ih]

theorem sequenceAll_ofAtoms (key : Key) (atoms : List Atom) :
    sequenceAll (ofAtoms key atoms) = ofAtoms key atoms := by
  have hbare : ∀ p ∈ ofAtoms key atoms, p.bare = p := fun p hp => by
    have hleaf := isGroup_of_mem_ofAtoms hp
    cases p with
    | leaf => rfl
    | group => cases hleaf
  rw [sequenceAll, flattenAll_ofAtoms]
  exact (List.map_congr_left hbare).trans (List.map_id _)

theorem keys_sublist_keysAll (ps : List Part) : (ps.map key).Sublist (keysAll ps) := by
  induction ps with
  | nil => exact .refl _
  | cons p ps ih =>
    rw [keysAll_cons, keys_eq]
    exact (ih.trans (List.sublist_append_right _ _)).cons_cons _

theorem sequence_close (p : Part) : p.close.sequence = p.sequence := by
  cases p <;> rfl

theorem sequence_push (hp : p.isGroup = true) (new : List Part) :
    (new.foldl (fun g child => push child g) p).sequence =
      p.sequence ++ if p.isClosed then [] else sequenceAll new := by
  cases p with
  | leaf => cases hp
  | group h shape cs isClosed =>
    cases isClosed with
    | true =>
      have hdrop : new.foldl (fun g child => push child g) (.group h shape cs true) =
          .group h shape cs true := by
        induction new with
        | nil => rfl
        | cons c new ih => exact ih
      rw [hdrop]
      exact (List.append_nil _).symm
    | false =>
      rw [foldl_push, sequence_eq, sequence_eq, children, children, sequenceAll_append]
      rfl

/-! ### The place of a key -/

/-- In the sequence of the parts, `l` stands ahead of the part with the key and `r` behind its
subtree, whatever the part is changed to. -/
structure Hole (k : Key) (ps : List Part) (g : Part) (l r : List Part) : Prop where
  mem : g ∈ flattenAll ps
  key_eq : g.key = k
  sequence_eq : sequenceAll ps = l ++ g.sequence ++ r
  update_eq : ∀ f : Part → Part, sequenceAll (updateAll k f ps) = l ++ (f g).sequence ++ r

namespace Hole

variable {g : Part} {l r : List Part}

theorem head (p : Part) (hk : p.key ∉ keysAll ps) : Hole p.key (p :: ps) p [] (sequenceAll ps) where
  mem := by
    rw [flattenAll, flatten_eq]
    exact List.mem_cons_self
  key_eq := rfl
  sequence_eq := sequenceAll_cons p ps
  update_eq f := by
    rw [updateAll, update_of_key_eq rfl, updateAll_of_notMem ps hk, sequenceAll_cons]
    rfl

theorem below {h : Head} {shape : Shape} {cs : List Part} {isClosed : Bool}
    (hole : Hole k cs g l r) (hne : h.key ≠ k) (hk : k ∉ keysAll ps) :
    Hole k (.group h shape cs isClosed :: ps) g (.group h shape [] false :: l)
      (r ++ sequenceAll ps) where
  mem := by
    rw [flattenAll, flatten]
    exact List.mem_append_left _ (List.mem_cons_of_mem _ hole.mem)
  key_eq := hole.key_eq
  sequence_eq := by
    rw [sequenceAll_cons, Part.sequence_eq, children, hole.sequence_eq]
    simp [bare]
  update_eq f := by
    rw [updateAll, update, if_neg hne, updateAll_of_notMem ps hk, sequenceAll_cons,
      Part.sequence_eq, children, hole.update_eq]
    simp [bare]

theorem tail (hole : Hole k ps g l r) (hk : k ∉ p.keys) :
    Hole k (p :: ps) g (p.sequence ++ l) r where
  mem := by
    rw [flattenAll]
    exact List.mem_append_right _ hole.mem
  key_eq := hole.key_eq
  sequence_eq := by simp only [sequenceAll_cons, hole.sequence_eq, List.append_assoc]
  update_eq f := by
    rw [updateAll, update_of_notMem p hk, sequenceAll_cons, hole.update_eq]
    simp only [List.append_assoc]

end Hole

theorem exists_hole : (ps : List Part) → (keysAll ps).Nodup → k ∈ keysAll ps →
    ∃ g l r, Hole k ps g l r
  | [], _, hk => by cases hk
  | p :: ps, hkeys, hk => by
    rw [keysAll_cons, List.nodup_append'] at hkeys
    obtain ⟨hp, hps, hapart⟩ := hkeys
    rw [keysAll_cons, List.mem_append] at hk
    by_cases hin : k ∈ p.keys
    · by_cases hhead : p.key = k
      · subst hhead
        exact ⟨_, _, _, Hole.head p (hapart hin)⟩
      · cases p with
        | leaf h content =>
          rw [keys_eq, List.mem_cons] at hin
          exact absurd (hin.resolve_right List.not_mem_nil).symm hhead
        | group h shape cs isClosed =>
          rw [keys_eq, List.nodup_cons] at hp
          have hbelow : k ∈ keysAll cs := (List.mem_cons.1 hin).resolve_left (Ne.symm hhead)
          obtain ⟨g, l, r, hole⟩ := exists_hole cs hp.2 hbelow
          exact ⟨_, _, _, hole.below hhead (hapart hin)⟩
    · obtain ⟨g, l, r, hole⟩ := exists_hole ps hps (hk.resolve_left hin)
      exact ⟨_, _, _, hole.tail hin⟩

/-! ### Taking a part out -/

/-- Without `q` and its subtree the parts are `rest`, and the others stay in place. -/
structure Cut (ps : List Part) (q : Part) (rest : List Part) : Prop where
  mem : q ∈ flattenAll ps
  split : ∃ l r, sequenceAll ps = l ++ q.sequence ++ r ∧ sequenceAll rest = l ++ r

namespace Cut

variable {rest : List Part}

theorem head (p : Part) (ps : List Part) : Cut (p :: ps) p ps where
  mem := by
    rw [flattenAll, flatten_eq]
    exact List.mem_cons_self
  split := ⟨[], sequenceAll ps, sequenceAll_cons p ps, rfl⟩

theorem tail (p : Part) (cut : Cut ps q rest) : Cut (p :: ps) q (p :: rest) where
  mem := by
    rw [flattenAll]
    exact List.mem_append_right _ cut.mem
  split := by
    obtain ⟨l, r, hps, hrest⟩ := cut.split
    refine ⟨p.sequence ++ l, r, ?_, ?_⟩
    · simp only [sequenceAll_cons, hps, List.append_assoc]
    · rw [sequenceAll_cons, hrest, List.append_assoc]

theorem below (h : Head) (shape : Shape) (isClosed : Bool) (cut : Cut ps q rest)
    (behind : List Part) :
    Cut (.group h shape ps isClosed :: behind) q (.group h shape rest isClosed :: behind) where
  mem := by
    rw [flattenAll, flatten]
    exact List.mem_append_left _ (List.mem_cons_of_mem _ cut.mem)
  split := by
    obtain ⟨l, r, hps, hrest⟩ := cut.split
    refine ⟨.group h shape [] false :: l, r ++ sequenceAll behind, ?_, ?_⟩
    · rw [sequenceAll_cons, sequence_eq, children, hps]
      simp [bare]
    · rw [sequenceAll_cons, sequence_eq, children, hrest]
      simp [bare]

end Cut

theorem takeDirect?_eq_some {rest : List Part} (h : takeDirect? k ps = some (q, rest)) :
    q.key = k ∧ Cut ps q rest := by
  induction ps generalizing rest with
  | nil => cases h
  | cons p ps ih =>
    rw [takeDirect?] at h
    by_cases hp : p.key = k
    · rw [if_pos hp] at h
      cases h
      exact ⟨hp, Cut.head _ _⟩
    · rw [if_neg hp] at h
      obtain ⟨⟨q', rest'⟩, htake, heq⟩ := Option.map_eq_some_iff.1 h
      cases heq
      obtain ⟨hq, cut⟩ := ih htake
      exact ⟨hq, cut.tail p⟩

theorem takeDirect?_eq_none (h : takeDirect? k ps = none) : ∀ p ∈ ps, p.key ≠ k := by
  induction ps with
  | nil => exact fun p hp => absurd hp List.not_mem_nil
  | cons p ps ih =>
    rw [takeDirect?] at h
    by_cases hp : p.key = k
    · rw [if_pos hp] at h
      cases h
    · rw [if_neg hp, Option.map_eq_none_iff] at h
      exact List.forall_mem_cons.2 ⟨hp, ih h⟩

mutual

theorem takeBelow?_eq_some : (p : Part) → {p' : Part} → takeBelow? k p = some (q, p') →
    q.key = k ∧ ∀ behind, Cut (p :: behind) q (p' :: behind)
  | .leaf .., _, h => by cases h
  | .group head shape cs isClosed, p', h => by
    rw [takeBelow?] at h
    cases hdirect : takeDirect? k cs with
    | some taken =>
      obtain ⟨q', rest⟩ := taken
      rw [hdirect] at h
      cases h
      obtain ⟨hq, cut⟩ := takeDirect?_eq_some hdirect
      exact ⟨hq, cut.below _ _ _⟩
    | none =>
      rw [hdirect] at h
      obtain ⟨⟨q', rest⟩, hnested, heq⟩ := Option.map_eq_some_iff.1 h
      cases heq
      obtain ⟨hq, cut⟩ := takeNested?_eq_some cs hnested
      exact ⟨hq, cut.below _ _ _⟩

theorem takeNested?_eq_some : (ps : List Part) → {rest : List Part} →
    takeNested? k ps = some (q, rest) → q.key = k ∧ Cut ps q rest
  | [], _, h => by cases h
  | p :: ps, rest, h => by
    rw [takeNested?] at h
    cases hbelow : takeBelow? k p with
    | some taken =>
      obtain ⟨q', p'⟩ := taken
      rw [hbelow] at h
      cases h
      obtain ⟨hq, cut⟩ := takeBelow?_eq_some p hbelow
      exact ⟨hq, cut _⟩
    | none =>
      rw [hbelow] at h
      obtain ⟨⟨q', rest'⟩, hnested, heq⟩ := Option.map_eq_some_iff.1 h
      cases heq
      obtain ⟨hq, cut⟩ := takeNested?_eq_some ps hnested
      exact ⟨hq, cut.tail p⟩

end

mutual

theorem takeBelow?_eq_none : (p : Part) → takeBelow? k p = none → k ∉ keysAll p.children
  | .leaf .., _ => List.not_mem_nil
  | .group head shape cs isClosed, h => by
    rw [takeBelow?] at h
    cases hdirect : takeDirect? k cs with
    | some taken =>
      rw [hdirect] at h
      cases h
    | none =>
      rw [hdirect] at h
      exact takeNested?_eq_none cs (takeDirect?_eq_none hdirect) (Option.map_eq_none_iff.1 h)

theorem takeNested?_eq_none : (ps : List Part) → (∀ p ∈ ps, p.key ≠ k) →
    takeNested? k ps = none → k ∉ keysAll ps
  | [], _, _ => List.not_mem_nil
  | p :: ps, hdirect, h => by
    obtain ⟨hp, hps⟩ := List.forall_mem_cons.1 hdirect
    rw [takeNested?] at h
    cases hbelow : takeBelow? k p with
    | some taken =>
      rw [hbelow] at h
      cases h
    | none =>
      rw [hbelow] at h
      have hchildren := takeBelow?_eq_none p hbelow
      have hrest := takeNested?_eq_none ps hps (Option.map_eq_none_iff.1 h)
      rw [keysAll_cons, keys_eq, List.mem_append, List.mem_cons, not_or, not_or]
      exact ⟨⟨Ne.symm hp, hchildren⟩, hrest⟩

end

theorem take?_eq_some {rest : List Part} (h : take? k ps = some (q, rest)) :
    q.key = k ∧ Cut ps q rest := by
  rw [take?] at h
  cases hdirect : takeDirect? k ps with
  | some taken =>
    rw [hdirect] at h
    cases h
    exact takeDirect?_eq_some hdirect
  | none =>
    rw [hdirect] at h
    exact takeNested?_eq_some ps h

theorem take?_eq_none (h : take? k ps = none) : k ∉ keysAll ps := by
  rw [take?] at h
  cases hdirect : takeDirect? k ps with
  | some taken =>
    rw [hdirect] at h
    cases h
  | none =>
    rw [hdirect] at h
    exact takeNested?_eq_none ps (takeDirect?_eq_none hdirect) h

/-- The parts of `kept` stand in both sequences in the same order, and no other part of the one has
the key of a part of the other. -/
structure Keeps (kept old result : List Part) : Prop where
  old_sublist : kept.Sublist old
  result_sublist : kept.Sublist result
  mem_old : ∀ p ∈ old, p.key ∈ result.map Part.key → p ∈ kept
  mem_result : ∀ p ∈ result, p.key ∈ old.map Part.key → p ∈ kept

theorem Keeps.filter_eq {kept old result : List Part} (h : Keeps kept old result)
    (hold : (old.map Part.key).Nodup) (hresult : (result.map Part.key).Nodup) :
    (old.filter fun p => p.key ∈ result.map Part.key) =
      result.filter fun p => p.key ∈ old.map Part.key := by
  have hleft : (old.filter fun p => p.key ∈ result.map Part.key) = kept := by
    refine filter_eq_of_sublist h.old_sublist hold.of_map fun p hp => ?_
    rw [decide_eq_true_iff]
    exact ⟨h.mem_old p hp, fun hmem => List.mem_map_of_mem (h.result_sublist.subset hmem)⟩
  have hright : (result.filter fun p => p.key ∈ old.map Part.key) = kept := by
    refine filter_eq_of_sublist h.result_sublist hresult.of_map fun p hp => ?_
    rw [decide_eq_true_iff]
    exact ⟨h.mem_result p hp, fun hmem => List.mem_map_of_mem (h.old_sublist.subset hmem)⟩
  rw [hleft, hright]

theorem mem_of_key_mem {shorter longer : List Part} (hs : shorter.Sublist longer)
    (hkeys : (longer.map Part.key).Nodup) {p : Part} (hp : p ∈ longer)
    (hkey : p.key ∈ shorter.map Part.key) : p ∈ shorter := by
  obtain ⟨q, hq, hqp⟩ := List.mem_map.1 hkey
  exact List.inj_on_of_nodup_map hkeys (hs.subset hq) hp hqp ▸ hq

end Part

namespace Tree

open SqlComposer.Part (keysAll sequenceAll)

def keys (t : Tree) : List Key :=
  keysAll t.parts

def sequence (t : Tree) : List Part :=
  sequenceAll t.parts

variable {t : Tree}

theorem map_key_sequence (t : Tree) : t.sequence.map Part.key = t.keys :=
  Part.map_key_sequenceAll t.parts

theorem mem_keys_of_mem {p : Part} (hp : p ∈ t.sequence) : p.key ∈ t.keys := by
  rw [Tree.keys, ← Part.map_key_sequenceAll]
  exact List.mem_map_of_mem hp

theorem find?_eq_some (hkeys : t.keys.Nodup) {p : Part} (hp : p ∈ t.flatten) :
    t.find? p.key = some p := by
  rw [Tree.find?]
  cases hfind : t.flatten.find? fun q => q.key == p.key with
  | none => exact absurd (List.find?_eq_none.1 hfind p hp) (by simp)
  | some q =>
    have hkey : q.key = p.key := by simpa using List.find?_some hfind
    rw [List.inj_on_of_nodup_map hkeys (List.mem_of_find?_eq_some hfind) hp hkey]

theorem sequence_update_close (hkeys : t.keys.Nodup) (k : Key) :
    (t.update k Part.close).sequence = t.sequence := by
  by_cases hk : k ∈ t.keys
  · obtain ⟨g, l, r, hole⟩ := Part.exists_hole t.parts hkeys hk
    rw [sequence, sequence, update, hole.update_eq, Part.sequence_close,
      hole.sequence_eq]
  · rw [Tree.update, Part.updateAll_of_notMem t.parts hk]

end Tree

end SqlComposer
