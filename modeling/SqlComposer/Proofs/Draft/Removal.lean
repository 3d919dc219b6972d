import SqlComposer.Proofs.Draft.Edit
import SqlComposer.Proofs.Tree.LastGroup

/-!
# Removal undoes insertion

Wherever an edit puts a part, it puts it into one gap of the tree and changes nothing else, so a
part with a fresh key that is taken out again leaves the tree as it was.
-/
namespace SqlComposer

open SqlComposer.Part (keysAll)

/-- The one tree is the other with a part in one place. -/
def Tree.PutsIn (t t' : Tree) (p : Part) : Prop :=
  ∃ place : Place, t.parts = place.fill [] ∧ t' = { t with parts := place.fill [p] }

namespace Tree

variable {t t' : Tree} {g p : Part}

theorem PutsIn.remove? (h : t.PutsIn t' p) (hp : p.key ∉ t.keys) :
    t'.remove? p.key = some (p, t) := by
  obtain ⟨place, hparts, rfl⟩ := h
  rw [keys, hparts] at hp
  rw [remove?_of_place hp rfl, ← hparts]

theorem putsIn_top {l r : List Part} (hparts : t.parts = l ++ r) (p : Part) :
    t.PutsIn { t with parts := l ++ p :: r } p :=
  ⟨.top l r, by simp [Place.fill, hparts], by simp [Place.fill]⟩

theorem putsIn_add (t : Tree) (p : Part) : t.PutsIn (t.add p) p :=
  putsIn_top (List.append_nil _).symm p

theorem putsIn_addAheadOf (t : Tree) (p : Part) (anchor : Part → Bool) :
    t.PutsIn (t.addAheadOf p anchor) p := by
  obtain ⟨l, r, hparts, hins⟩ := exists_insertAhead anchor t.parts
  rw [addAheadOf, hins]
  exact putsIn_top hparts p

theorem putsIn_addBefore (t : Tree) (p : Part) (tag : Tag) : t.PutsIn (t.addBefore p tag) p := by
  rw [addBefore]
  split_ifs
  · exact putsIn_addAheadOf t p _
  · exact putsIn_top (l := []) rfl p

theorem putsIn_addAfter (t : Tree) (p : Part) (tag : Tag) : t.PutsIn (t.addAfter p tag) p := by
  obtain ⟨l, r, hparts, hins⟩ := exists_insertBehind (fun q : Part => q.tag == tag) t.parts
  rw [addAfter, hins]
  exact putsIn_top hparts p

/-- A part is put in, unless the group that has to take it is closed. -/
def Offers (t t' : Tree) (target : Option Part) (p : Part) : Prop :=
  if target.any Part.isClosed then t' = t else t.PutsIn t' p

theorem offers_push (hkeys : t.keys.Nodup) (hg : g ∈ t.flatten) (hgroup : g.isGroup = true)
    (p : Part) : t.Offers (t.update g.key (Part.push p)) (some g) p := by
  obtain ⟨place, hparts, -⟩ := exists_reach? hkeys hg
  rw [Offers, Option.any_some]
  split_ifs with hclosed
  · exact update_push_of_closed hkeys hparts hclosed p
  · obtain ⟨head, shape, cs, rfl⟩ := Part.eq_group_of_open hgroup (Bool.eq_false_iff.2 hclosed)
    refine ⟨place.lastChild head shape cs false, ?_, ?_⟩
    · rw [Place.fill_lastChild, List.append_nil, hparts]
    · rw [Place.fill_lastChild]
      exact update_push_of_open hkeys hparts p

theorem offers_addToLastWhere (hkeys : t.keys.Nodup) (p : Part) (anchor : Part → Bool) :
    t.Offers (t.addToLastWhere p anchor) (t.lastGroup? anchor) p := by
  cases hlast : t.lastGroup? anchor with
  | none =>
    rw [addToLastWhere, hlast]
    exact putsIn_add t p
  | some g =>
    obtain ⟨hg, hmatch⟩ := List.mem_filter.1 (List.mem_of_getLast? hlast)
    rw [addToLastWhere_of_some hlast]
    exact offers_push hkeys hg (Bool.and_eq_true_iff.1 hmatch).1 p

end Tree

namespace Edit

variable {d : Draft} {p : Part}

/-- An edit puts the part that comes with it into one place, or drops it. -/
theorem offers_apply (hkeys : d.keys.Nodup) {edit : Edit} (hp : edit.outside = [p])
    (htarget : edit.hasTarget d = true) : d.Offers (edit.apply d).toTree (edit.target? d) p := by
  cases edit with
  | add => cases hp; exact Tree.putsIn_add d.toTree p
  | addBefore _ tag => cases hp; exact Tree.putsIn_addBefore d.toTree p tag
  | addAfter _ tag => cases hp; exact Tree.putsIn_addAfter d.toTree p tag
  | addAheadOf _ anchor => cases hp; exact Tree.putsIn_addAheadOf d.toTree p anchor
  | addToLast _ tag => cases hp; exact Tree.offers_addToLastWhere hkeys p _
  | addToLastWhere _ anchor => cases hp; exact Tree.offers_addToLastWhere hkeys p anchor
  | push k _ =>
    cases hp
    cases hfind : d.find? k with
    | none => simp [hasTarget, hfind] at htarget
    | some g =>
      have hgroup : g.isGroup = true := by simpa [hasTarget, hfind] using htarget
      obtain rfl : g.key = k := by simpa using List.find?_some hfind
      have hoffer := Tree.offers_push hkeys (List.mem_of_find?_eq_some hfind) hgroup p
      rw [target?, hfind, Option.filter_some, if_pos hgroup]
      exact hoffer
  | _ => cases hp

/-- In a tree with distinct keys every key that occurs has one part in one place, and the lookup
among all parts, the walk to the part, a change of it and its removal all meet that part there; a
key that does not occur finds nothing and changes nothing. What an edit puts in with a fresh key
comes back when it is taken out right afterwards, and leaves the tree as it was, unless a closed
group has dropped it. -/
theorem removal_undoes_insertion (hkeys : d.keys.Nodup) :
    (∀ k ∈ d.keys, ∃ g, ∃ place : Place, g.key = k ∧ d.parts = place.fill [g] ∧
      d.find? k = some g ∧ d.visit.find? (fun q => q.key == k) = some g ∧
      d.reach? k = some (g, place) ∧
      (∀ f, d.update k f = { d.toTree with parts := place.fill [f g] }) ∧
      d.remove? k = some (g, { d.toTree with parts := place.fill [] })) ∧
    (∀ k, k ∉ d.keys → d.find? k = none ∧ d.visit.find? (fun q => q.key == k) = none ∧
      d.reach? k = none ∧ (∀ f, d.update k f = d.toTree) ∧ d.remove? k = none) ∧
    ∀ (edit : Edit) (p : Part), edit.outside = [p] → edit.hasTarget d = true → p.key ∉ d.keys →
      if (edit.target? d).any Part.isClosed then (edit.apply d).toTree = d.toTree
      else (edit.apply d).remove? p.key = some (p, d.toTree) := by
  refine ⟨fun k hk => ?_, fun k hk => ?_, fun edit p hp htarget hfresh => ?_⟩
  · obtain ⟨g, hg, rfl⟩ := List.mem_map.1 hk
    obtain ⟨place, hparts, hreach⟩ := Tree.exists_reach? hkeys hg
    have hfind : d.find? g.key = some g := Tree.find?_eq_some hkeys hg
    refine ⟨g, place, rfl, hparts, hfind, ?_, hreach, Tree.update_of_place hkeys hparts, ?_⟩
    · rw [Tree.visit_eq_flatten]
      exact hfind
    · exact Tree.remove?_of_place (Tree.key_notMem_of_place hkeys hparts) hparts
  · have hfind : d.find? k = none :=
      List.find?_eq_none.2 fun q hq heq => hk (beq_iff_eq.1 heq ▸ List.mem_map_of_mem hq)
    refine ⟨hfind, ?_, Part.reachAll?_of_notMem hk, fun f => ?_, ?_⟩
    · rw [Tree.visit_eq_flatten]
      exact hfind
    · rw [Tree.update, Part.updateAll_of_notMem d.parts hk]
    · rw [Tree.remove?, Part.take?_of_notMem hk]
      rfl
  · have hoffer := offers_apply hkeys hp htarget
    rw [Tree.Offers] at hoffer
    split_ifs with hclosed
    · rwa [if_pos hclosed] at hoffer
    · rw [if_neg hclosed] at hoffer
      exact hoffer.remove? hfresh

def restricted : Draft := { Tree.restricted with nextKey := 9 }

theorem removal_undoes_insertion_nested :
    restricted.keys.Nodup ∧
      (∃ place : Place,
        restricted.parts =
          place.fill [.clause 5 .andClause none none [.text 6 .plain "Name = 2"]] ∧
        restricted.remove? 5 =
          some (.clause 5 .andClause none none [.text 6 .plain "Name = 2"],
            { restricted.toTree with parts := place.fill [] })) ∧
      restricted.remove? 8 = none ∧
      ((push 5 (.list 8 .plain)).apply restricted).remove? 8 =
        some (.list 8 .plain, restricted.toTree) := by
  have hkeys : restricted.keys.Nodup := by decide
  obtain ⟨hpresent, habsent, hundo⟩ := removal_undoes_insertion hkeys
  obtain ⟨g, place, -, hparts, hfind, -, -, -, hremove⟩ := hpresent 5 (by decide)
  obtain rfl : Part.clause 5 .andClause none none [.text 6 .plain "Name = 2"] = g :=
    Option.some.inj hfind
  exact ⟨hkeys, ⟨place, hparts, hremove⟩, (habsent 8 (by decide)).2.2.2.2,
    hundo (push 5 (.list 8 .plain)) (.list 8 .plain) rfl rfl (by decide)⟩

end Edit

end SqlComposer
