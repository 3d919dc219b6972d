import SqlComposer.Proofs.Supply
import SqlComposer.Proofs.Tree.Sequence

/-!
# Places in a tree

A place is a gap among the parts of a forest, at the top or among the children of a group at any
depth, and `fill` puts parts into it. Where keys differ each part has one place, and everything
that goes by its key meets it there: the lookup in the parts depth first, the walk to the part, a
change of it and its removal.
-/
namespace SqlComposer

open SqlComposer.Part (keysAll sequenceAll)

namespace Part

variable {k : Key} {p q : Part} {l r ps : List Part}

theorem updateAll_append (k : Key) (f : Part → Part) (l r : List Part) :
    updateAll k f (l ++ r) = updateAll k f l ++ updateAll k f r := by
  simp only [updateAll_eq, List.map_append]

theorem takeDirect?_of_notMem (hk : k ∉ ps.map key) : takeDirect? k ps = none := by
  induction ps with
  | nil => rfl
  | cons p ps ih =>
    rw [List.map_cons, List.mem_cons, not_or] at hk
    rw [takeDirect?, if_neg (Ne.symm hk.1), ih hk.2]
    rfl

theorem takeBelow?_group (k : Key) (h : Head) (shape : Shape) (cs : List Part) (isClosed : Bool) :
    takeBelow? k (.group h shape cs isClosed) =
      (take? k cs).map fun (q, rest) => (q, .group h shape rest isClosed) := by
  rw [takeBelow?, take?]
  cases takeDirect? k cs <;> rfl

theorem takeBelow?_of_notMem (hk : k ∉ p.keys) : takeBelow? k p = none := by
  cases htake : takeBelow? k p with
  | none => rfl
  | some taken =>
    obtain ⟨q, p'⟩ := taken
    obtain ⟨rfl, hcut⟩ := takeBelow?_eq_some p htake
    have hmem := (hcut []).mem
    rw [flattenAll, flattenAll, List.append_nil] at hmem
    exact absurd (List.mem_map_of_mem hmem) hk

theorem takeNested?_append (hk : k ∉ keysAll l) {p' : Part}
    (hp : takeBelow? k p = some (q, p')) :
    takeNested? k (l ++ p :: r) = some (q, l ++ p' :: r) := by
  induction l with
  | nil => rw [List.nil_append, takeNested?, hp, List.nil_append]
  | cons c l ih =>
    rw [keysAll_cons, List.mem_append, not_or] at hk
    rw [List.cons_append, takeNested?, takeBelow?_of_notMem hk.1, ih hk.2]
    rfl

theorem take?_of_notMem (hk : k ∉ keysAll ps) : take? k ps = none := by
  cases htake : take? k ps with
  | none => rfl
  | some taken =>
    obtain ⟨rfl, cut⟩ := take?_eq_some htake
    exact absurd (List.mem_map_of_mem cut.mem) hk

end Part

inductive Place where
  | top (before after : List Part)
  | inside (before : List Part) (head : Head) (shape : Shape) (inner : Place) (isClosed : Bool)
    (after : List Part)

namespace Place

def fill (ps : List Part) : Place → List Part
  | top before after => before ++ ps ++ after
  | inside before head shape inner isClosed after =>
    before ++ .group head shape (inner.fill ps) isClosed :: after

def pad (l r : List Part) : Place → Place
  | top before after => top (l ++ before) (after ++ r)
  | inside before head shape inner isClosed after =>
    inside (l ++ before) head shape inner isClosed (after ++ r)

def comp : Place → Place → Place
  | top before after, q => q.pad before after
  | inside before head shape inner isClosed after, q =>
    inside before head shape (inner.comp q) isClosed after

/-- The sequence of the parts that stand ahead of the gap. -/
def ahead : Place → List Part
  | top before _ => sequenceAll before
  | inside before head shape inner _ _ =>
    sequenceAll before ++ .group head shape [] false :: inner.ahead

def behind : Place → List Part
  | top _ after => sequenceAll after
  | inside _ _ _ inner _ after => inner.behind ++ sequenceAll after

variable {place : Place} {g p : Part} {ps : List Part} {k : Key}

theorem fill_pad (l r : List Part) (place : Place) (ps : List Part) :
    (place.pad l r).fill ps = l ++ place.fill ps ++ r := by
  cases place <;> simp [pad, fill]

theorem fill_comp (place q : Place) (ps : List Part) :
    (place.comp q).fill ps = place.fill (q.fill ps) := by
  induction place with
  | top before after => rw [comp, fill_pad, fill]
  | inside before head shape inner isClosed after ih => rw [comp, fill, ih, fill]

theorem sequenceAll_fill (place : Place) (ps : List Part) :
    sequenceAll (place.fill ps) = place.ahead ++ sequenceAll ps ++ place.behind := by
  induction place with
  | top before after => rw [fill, Part.sequenceAll_append, Part.sequenceAll_append, ahead, behind]
  | inside before head shape inner isClosed after ih =>
    rw [fill, Part.sequenceAll_append, Part.sequenceAll_cons, Part.sequence_eq, Part.children, ih,
      ahead, behind]
    simp [Part.bare]

theorem keysAll_fill (place : Place) (ps : List Part) :
    keysAll (place.fill ps) =
      place.ahead.map Part.key ++ keysAll ps ++ place.behind.map Part.key := by
  rw [← Part.map_key_sequenceAll, sequenceAll_fill, List.map_append, List.map_append,
    Part.map_key_sequenceAll]

theorem key_notMem_of_nodup (hkeys : (keysAll (place.fill [g])).Nodup) :
    g.key ∉ keysAll (place.fill []) := by
  rw [keysAll_fill, Part.keysAll_cons, Part.keys_eq] at hkeys
  rw [keysAll_fill]
  intro hmem
  have hcons : (g.key :: (place.ahead.map Part.key ++
      (keysAll g.children ++ place.behind.map Part.key))).Nodup :=
    List.perm_middle.nodup_iff.1 (by simpa using hkeys)
  refine (List.nodup_cons.1 hcons).1 ?_
  rw [Part.keysAll_nil, List.append_nil, List.mem_append] at hmem
  exact List.mem_append.2 (hmem.imp_right (List.mem_append_right _))

theorem mem_flattenAll_fill (hp : p ∈ ps) (place : Place) :
    p ∈ Part.flattenAll (place.fill ps) := by
  induction place with
  | top before after =>
    rw [fill, Part.flattenAll_append, Part.flattenAll_append]
    refine List.mem_append_left _ (List.mem_append_right _ ?_)
    rw [Part.flattenAll_eq]
    exact List.mem_flatMap.2 ⟨p, hp, p.flatten_eq ▸ List.mem_cons_self⟩
  | inside before head shape inner isClosed after ih =>
    rw [fill, Part.flattenAll_append, Part.flattenAll, Part.flatten]
    exact List.mem_append_right _ (List.mem_append_left _ (List.mem_cons_of_mem _ ih))

/-- Ahead of the place of a group and inside of it, behind its children. -/
def lastChild (place : Place) (head : Head) (shape : Shape) (children : List Part)
    (isClosed : Bool) : Place :=
  place.comp (.inside [] head shape (.top children []) isClosed [])

theorem fill_lastChild (place : Place) (head : Head) (shape : Shape) (children : List Part)
    (isClosed : Bool) (ps : List Part) :
    (place.lastChild head shape children isClosed).fill ps =
      place.fill [.group head shape (children ++ ps) isClosed] := by
  rw [lastChild, fill_comp, fill, fill, List.append_nil, List.nil_append]

theorem inside_notMem {before after : List Part} {head : Head} {shape : Shape} {inner : Place}
    {isClosed : Bool}
    (hk : k ∉ keysAll ((inside before head shape inner isClosed after).fill [])) :
    k ∉ keysAll before ∧ head.key ≠ k ∧ k ∉ keysAll (inner.fill []) ∧ k ∉ keysAll after := by
  rw [fill, keysAll, Part.flattenAll_append, Part.flattenAll, Part.flatten] at hk
  simp only [List.map_append, List.map_cons, List.mem_append, List.mem_cons, not_or] at hk
  exact ⟨hk.1, Ne.symm hk.2.1.1, hk.2.1.2, hk.2.2⟩

theorem updateAll_fill (f : Part → Part) (hk : g.key ∉ keysAll (place.fill [])) :
    Part.updateAll g.key f (place.fill [g]) = place.fill [f g] := by
  induction place with
  | top before after =>
    rw [fill, List.append_nil, keysAll, Part.flattenAll_append, List.map_append, List.mem_append,
      not_or] at hk
    rw [fill, Part.updateAll_append, Part.updateAll_append, Part.updateAll_of_notMem before hk.1,
      Part.updateAll_of_notMem after hk.2, Part.updateAll, Part.update_of_key_eq rfl, Part.updateAll,
      fill]
  | inside before head shape inner isClosed after ih =>
    obtain ⟨hbefore, hne, hinner, hafter⟩ := inside_notMem hk
    rw [fill, Part.updateAll_append, Part.updateAll, Part.update, if_neg hne,
      Part.updateAll_of_notMem before hbefore, Part.updateAll_of_notMem after hafter, ih hinner,
      fill]

theorem take?_fill (hk : g.key ∉ keysAll (place.fill [])) :
    Part.take? g.key (place.fill [g]) = some (g, place.fill []) := by
  induction place with
  | top before after =>
    rw [fill, List.append_nil, keysAll, Part.flattenAll_append, List.map_append, List.mem_append,
      not_or] at hk
    have hbefore : g.key ∉ before.map Part.key := fun hmem =>
      hk.1 ((Part.keys_sublist_keysAll before).subset hmem)
    rw [fill, List.append_assoc, List.singleton_append, Part.take?,
      Draft.takeDirect?_eq hbefore, fill, List.append_nil]
    rfl
  | inside before head shape inner isClosed after ih =>
    obtain ⟨hbefore, hne, hinner, hafter⟩ := inside_notMem hk
    have hdirect : Part.takeDirect? g.key
        (before ++ .group head shape (inner.fill [g]) isClosed :: after) = none := by
      refine Part.takeDirect?_of_notMem fun hmem => ?_
      rw [List.map_append, List.map_cons, List.mem_append, List.mem_cons] at hmem
      obtain hmem | heq | hmem := hmem
      · exact hbefore ((Part.keys_sublist_keysAll before).subset hmem)
      · exact hne heq.symm
      · exact hafter ((Part.keys_sublist_keysAll after).subset hmem)
    have hbelow : Part.takeBelow? g.key (.group head shape (inner.fill [g]) isClosed) =
        some (g, .group head shape (inner.fill []) isClosed) := by
      rw [Part.takeBelow?_group, ih hinner]
      rfl
    rw [fill, Part.take?, hdirect, Part.takeNested?_append hbefore hbelow, fill]
    rfl

end Place

/-! ### Walks -/

namespace Part

mutual

def reachAll? (k : Key) : List Part → Option (Part × Place)
  | [] => none
  | p :: ps =>
    if p.key = k then some (p, .top [] ps)
    else
      match reachBelow? k p ps with
      | some reached => some reached
      | none => (reachAll? k ps).map fun (q, place) => (q, place.pad [p] [])

/-- The first part with the key below a part that stands ahead of `after`. -/
def reachBelow? (k : Key) : Part → List Part → Option (Part × Place)
  | .leaf .., _ => none
  | .group h shape cs isClosed, after =>
    (reachAll? k cs).map fun (q, place) => (q, .inside [] h shape place isClosed after)

end

mutual

theorem reachAll?_eq_some {k : Key} {g : Part} : (ps : List Part) → {place : Place} →
    reachAll? k ps = some (g, place) → g.key = k ∧ place.fill [g] = ps
  | [], _, h => by cases h
  | p :: ps, place, h => by
    rw [reachAll?] at h
    by_cases hp : p.key = k
    · rw [if_pos hp] at h
      cases h
      exact ⟨hp, rfl⟩
    · rw [if_neg hp] at h
      cases hbelow : reachBelow? k p ps with
      | some reached =>
        rw [hbelow] at h
        cases h
        exact reachBelow?_eq_some p ps hbelow
      | none =>
        rw [hbelow] at h
        obtain ⟨⟨q, inner⟩, hreach, heq⟩ := Option.map_eq_some_iff.1 h
        cases heq
        obtain ⟨hkey, hfill⟩ := reachAll?_eq_some ps hreach
        refine ⟨hkey, ?_⟩
        rw [Place.fill_pad, hfill, List.append_nil]
        rfl

theorem reachBelow?_eq_some {k : Key} {g : Part} : (p : Part) → (after : List Part) →
    {place : Place} → reachBelow? k p after = some (g, place) →
    g.key = k ∧ place.fill [g] = p :: after
  | .leaf .., _, _, h => by cases h
  | .group head shape cs isClosed, after, place, h => by
    rw [reachBelow?] at h
    obtain ⟨⟨q, inner⟩, hreach, heq⟩ := Option.map_eq_some_iff.1 h
    cases heq
    obtain ⟨hkey, hfill⟩ := reachAll?_eq_some cs hreach
    refine ⟨hkey, ?_⟩
    rw [Place.fill, hfill]
    rfl

end

mutual

theorem reachAll?_eq_none {k : Key} : (ps : List Part) → reachAll? k ps = none → k ∉ keysAll ps
  | [], _ => List.not_mem_nil
  | p :: ps, h => by
    rw [reachAll?] at h
    by_cases hp : p.key = k
    · rw [if_pos hp] at h
      cases h
    · rw [if_neg hp] at h
      cases hbelow : reachBelow? k p ps with
      | some reached =>
        rw [hbelow] at h
        cases h
      | none =>
        rw [hbelow] at h
        have hrest := reachAll?_eq_none ps (Option.map_eq_none_iff.1 h)
        have hchildren := reachBelow?_eq_none p ps hbelow
        rw [keysAll_cons, keys_eq, List.mem_append, List.mem_cons, not_or, not_or]
        exact ⟨⟨Ne.symm hp, hchildren⟩, hrest⟩

theorem reachBelow?_eq_none {k : Key} : (p : Part) → (after : List Part) →
    reachBelow? k p after = none → k ∉ keysAll p.children
  | .leaf .., _, _ => List.not_mem_nil
  | .group head shape cs isClosed, _, h => by
    rw [reachBelow?] at h
    exact reachAll?_eq_none cs (Option.map_eq_none_iff.1 h)

end

theorem reachAll?_of_notMem {k : Key} {ps : List Part} (hk : k ∉ keysAll ps) :
    reachAll? k ps = none := by
  cases hreach : reachAll? k ps with
  | none => rfl
  | some reached =>
    obtain ⟨rfl, rfl⟩ := reachAll?_eq_some ps hreach
    exact absurd (List.mem_map_of_mem (Place.mem_flattenAll_fill List.mem_cons_self _)) hk

/-- The parts of a stack of forests, the uppermost first. A part is followed by what is below it,
which goes on top of what is left of its forest. -/
def visit : List (List Part) → List Part
  | [] => []
  | [] :: stack => visit stack
  | (.leaf h content :: ps) :: stack => .leaf h content :: visit (ps :: stack)
  | (.group h shape cs isClosed :: ps) :: stack =>
    .group h shape cs isClosed :: visit (cs :: ps :: stack)

theorem visit_eq (stack : List (List Part)) : visit stack = stack.flatMap flattenAll := by
  induction stack using visit.induct with
  | case1 => rw [visit, List.flatMap_nil]
  | case2 stack ih => rw [visit, ih, List.flatMap_cons, flattenAll, List.nil_append]
  | case3 h content ps stack ih =>
    rw [visit, ih, List.flatMap_cons, List.flatMap_cons, flattenAll, flatten]
    rfl
  | case4 h shape cs isClosed ps stack ih =>
    rw [visit, ih]
    simp only [List.flatMap_cons, flattenAll, flatten, List.cons_append, List.append_assoc]

end Part

namespace Tree

variable {t : Tree} {g : Part} {k : Key}

def visit (t : Tree) : List Part :=
  Part.visit [t.parts]

theorem visit_eq_flatten (t : Tree) : t.visit = t.flatten := by
  rw [visit, Part.visit_eq, List.flatMap_singleton, flatten]

def reach? (t : Tree) (k : Key) : Option (Part × Place) :=
  Part.reachAll? k t.parts

variable {place : Place}

theorem key_notMem_of_place (hkeys : t.keys.Nodup) (hparts : t.parts = place.fill [g]) :
    g.key ∉ keysAll (place.fill []) := by
  rw [keys, hparts] at hkeys
  exact Place.key_notMem_of_nodup hkeys

theorem update_of_place (hkeys : t.keys.Nodup) (hparts : t.parts = place.fill [g])
    (f : Part → Part) : t.update g.key f = { t with parts := place.fill [f g] } := by
  rw [update, hparts, Place.updateAll_fill f (key_notMem_of_place hkeys hparts)]

theorem remove?_of_place (hk : g.key ∉ keysAll (place.fill [])) (hparts : t.parts = place.fill [g]) :
    t.remove? g.key = some (g, { t with parts := place.fill [] }) := by
  rw [remove?, hparts, Place.take?_fill hk]
  rfl

/-- The walk to a part of a tree with distinct keys finds its place. -/
theorem exists_reach? (hkeys : t.keys.Nodup) (hg : g ∈ t.flatten) :
    ∃ place : Place, t.parts = place.fill [g] ∧ t.reach? g.key = some (g, place) := by
  cases hreach : t.reach? g.key with
  | none => exact absurd (List.mem_map_of_mem hg) (Part.reachAll?_eq_none t.parts hreach)
  | some reached =>
    obtain ⟨g', place⟩ := reached
    obtain ⟨hkey, hfill⟩ := Part.reachAll?_eq_some t.parts hreach
    have hmem : g' ∈ t.flatten := by
      rw [flatten, ← hfill]
      exact Place.mem_flattenAll_fill List.mem_cons_self place
    obtain rfl : g' = g := List.inj_on_of_nodup_map hkeys hmem hg hkey
    exact ⟨place, hfill.symm, rfl⟩

end Tree

end SqlComposer
