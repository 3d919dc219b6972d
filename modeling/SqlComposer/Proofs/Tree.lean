import SqlComposer.Draft
import Mathlib.Data.List.Forall2
import Mathlib.Data.List.Nodup
import Mathlib.Data.List.Perm.Subperm

/-!
# Parts found by their keys

Where the keys of a tree differ, a change at the key of a top-level part changes that part alone,
and a part that goes into the last matching group goes into the last matching top-level part.
-/
namespace SqlComposer

theorem exists_mem_of_forall₂ {α β : Type} {R : α → β → Prop} {l : List α} {m : List β}
    (h : List.Forall₂ R l m) {a : α} (ha : a ∈ l) : ∃ b ∈ m, R a b := by
  induction h with
  | nil => cases ha
  | cons hab _ ih =>
    rcases List.mem_cons.1 ha with rfl | ha
    · exact ⟨_, .head _, hab⟩
    · obtain ⟨b, hb, hab⟩ := ih ha
      exact ⟨b, .tail _ hb, hab⟩

variable {α β : Type} {p : α → Bool} {a : α}

theorem map_insertAhead (f : α → β) (p : β → Bool) (a : α) (as : List α) :
    insertAhead p (f a) (as.map f) = (insertAhead (fun b => p (f b)) a as).map f := by
  induction as with
  | nil => rfl
  | cons b as ih =>
    simp only [List.map_cons, insertAhead, ih]
    by_cases hb : p (f b) <;> simp [hb]

theorem insertAhead_append {l r : List α} (hl : ∀ b ∈ l, p b = false)
    (hr : ∀ b ∈ r.head?, p b = true) : insertAhead p a (l ++ r) = l ++ a :: r := by
  induction l with
  | nil =>
    cases r with
    | nil => rfl
    | cons b r =>
      have hb : p b = true := hr b rfl
      simp [insertAhead, hb]
  | cons b l ih =>
    have hb := hl b List.mem_cons_self
    have hrest := ih fun c hc => hl c (List.mem_cons_of_mem _ hc)
    simp [insertAhead, hb, hrest]

theorem insertAhead_of_none {l : List α} (hl : ∀ b ∈ l, p b = false) :
    insertAhead p a l = l ++ [a] := by
  simpa using insertAhead_append (r := []) hl (by simp)

theorem insertBehind_of_none {l : List α} (hl : ∀ b ∈ l, p b = false) :
    insertBehind p a l = l ++ [a] := by
  induction l with
  | nil => rfl
  | cons b l ih =>
    obtain ⟨hb, hl⟩ := List.forall_mem_cons.1 hl
    simp [insertBehind, hb, ih hl]

theorem insertBehind_append {l r : List α} {b : α} (hb : p b = true) (hr : ∀ c ∈ r, p c = false) :
    insertBehind p a (l ++ b :: r) = l ++ b :: a :: r := by
  induction l with
  | nil =>
    have hany : r.any p = false := by simpa using hr
    simp [insertBehind, hb, hany]
  | cons c l ih =>
    have hany : (l ++ b :: r).any p = true := by simp [hb]
    simp [insertBehind, hany, ih]

theorem exists_insertAhead (p : α → Bool) (as : List α) :
    ∃ l r, as = l ++ r ∧ ∀ a, insertAhead p a as = l ++ a :: r := by
  induction as with
  | nil => exact ⟨[], [], rfl, fun _ => rfl⟩
  | cons b as ih =>
    by_cases hb : p b = true
    · exact ⟨[], b :: as, rfl, fun a => by simp [insertAhead, hb]⟩
    · obtain ⟨l, r, rfl, hins⟩ := ih
      exact ⟨b :: l, r, rfl, fun a => by simp [insertAhead, hb, hins a]⟩

theorem exists_insertBehind (p : α → Bool) (as : List α) :
    ∃ l r, as = l ++ r ∧ ∀ a, insertBehind p a as = l ++ a :: r := by
  induction as with
  | nil => exact ⟨[], [], rfl, fun _ => rfl⟩
  | cons b as ih =>
    by_cases hb : (p b && !as.any p) = true
    · exact ⟨[b], as, rfl, fun a => by rw [insertBehind, if_pos hb]; rfl⟩
    · obtain ⟨l, r, rfl, hins⟩ := ih
      exact ⟨b :: l, r, rfl, fun a => by rw [insertBehind, if_neg hb, hins a]; rfl⟩

theorem insertAhead_perm (p : α → Bool) (a : α) (as : List α) :
    (insertAhead p a as).Perm (as ++ [a]) := by
  obtain ⟨l, r, rfl, hins⟩ := exists_insertAhead p as
  rw [hins a]
  exact List.perm_middle.trans (List.perm_append_singleton a _).symm

theorem insertBehind_perm (p : α → Bool) (a : α) (as : List α) :
    (insertBehind p a as).Perm (as ++ [a]) := by
  obtain ⟨l, r, rfl, hins⟩ := exists_insertBehind p as
  rw [hins a]
  exact List.perm_middle.trans (List.perm_append_singleton a _).symm

def modifyLast (p : α → Bool) (f : α → α) : List α → List α
  | [] => []
  | a :: as => if p a && !as.any p then f a :: as else a :: modifyLast p f as

theorem modifyLast_append_cons {f : α → α} {l r : List α} (ha : p a = true)
    (hr : ∀ b ∈ r, p b = false) : modifyLast p f (l ++ a :: r) = l ++ f a :: r := by
  induction l with
  | nil =>
    have hany : r.any p = false := by simpa using hr
    simp [modifyLast, ha, hany]
  | cons b l ih =>
    have hany : (l ++ a :: r).any p = true := by simp [ha]
    simp [modifyLast, hany, ih]

theorem map_modifyLast_of_eq {f : α → α} {g : α → β} (hf : ∀ a, g (f a) = g a) (as : List α) :
    (modifyLast p f as).map g = as.map g := by
  induction as with
  | nil => rfl
  | cons a as ih =>
    rw [modifyLast]
    by_cases ha : (p a && !as.any p) = true
    · rw [if_pos ha, List.map_cons, List.map_cons, hf]
    · rw [if_neg ha, List.map_cons, List.map_cons, ih]

theorem mem_modifyLast_or {f : α → α} {as : List α} (ha : a ∈ as) :
    a ∈ modifyLast p f as ∨ f a ∈ modifyLast p f as := by
  induction as with
  | nil => cases ha
  | cons b as ih =>
    rw [modifyLast]
    by_cases hb : (p b && !as.any p) = true
    · rw [if_pos hb]
      obtain rfl | ha := List.mem_cons.1 ha
      · exact .inr List.mem_cons_self
      · exact .inl (List.mem_cons_of_mem _ ha)
    · rw [if_neg hb]
      obtain rfl | ha := List.mem_cons.1 ha
      · exact .inl List.mem_cons_self
      · exact (ih ha).imp (List.mem_cons_of_mem _) (List.mem_cons_of_mem _)

theorem eq_or_of_mem_modifyLast {f : α → α} {as : List α} {b : α} (hb : b ∈ modifyLast p f as) :
    b ∈ as ∨ ∃ a ∈ as, b = f a := by
  induction as with
  | nil => cases hb
  | cons a as ih =>
    rw [modifyLast] at hb
    by_cases ha : (p a && !as.any p) = true
    · rw [if_pos ha] at hb
      obtain rfl | hb := List.mem_cons.1 hb
      · exact .inr ⟨a, List.mem_cons_self, rfl⟩
      · exact .inl (List.mem_cons_of_mem _ hb)
    · rw [if_neg ha] at hb
      obtain rfl | hb := List.mem_cons.1 hb
      · exact .inl List.mem_cons_self
      · obtain hb | ⟨a', ha', rfl⟩ := ih hb
        · exact .inl (List.mem_cons_of_mem _ hb)
        · exact .inr ⟨a', List.mem_cons_of_mem _ ha', rfl⟩

theorem exists_last_of_any {l : List α} (h : l.any p = true) :
    ∃ front b back, l = front ++ b :: back ∧ p b = true ∧ ∀ c ∈ back, p c = false := by
  induction l with
  | nil => simp at h
  | cons b l ih =>
    by_cases hl : l.any p = true
    · obtain ⟨front, c, back, rfl, hc, hback⟩ := ih hl
      exact ⟨b :: front, c, back, rfl, hc, hback⟩
    · have hnone : ∀ c ∈ l, p c = false := by simpa using hl
      exact ⟨[], b, l, rfl, by simpa [hl] using h, hnone⟩

theorem getLast?_filter_append_cons (l : List α) {r : List α} (ha : p a = true)
    (hr : ∀ b ∈ r, p b = false) : ((l ++ a :: r).filter p).getLast? = some a := by
  have hnone : r.filter p = [] := List.filter_eq_nil_iff.2 fun b hb => by simp [hr b hb]
  rw [List.filter_append, List.filter_cons_of_pos ha, hnone, List.getLast?_concat]

theorem any_map_of_eq {g : α → β} {q : β → Bool} {as : List α} (hp : ∀ a ∈ as, q (g a) = p a) :
    (as.map g).any q = as.any p := by
  induction as with
  | nil => rfl
  | cons a as ih =>
    have hrest := ih fun b hb => hp b (List.mem_cons_of_mem _ hb)
    rw [List.map_cons, List.any_cons, List.any_cons, hp a List.mem_cons_self, hrest]

theorem map_modifyLast {g : α → β} {q : β → Bool} {f : α → α} {f' : β → β} {as : List α}
    (hp : ∀ a ∈ as, q (g a) = p a) (hf : ∀ a ∈ as, p a = true → g (f a) = f' (g a)) :
    modifyLast q f' (as.map g) = (modifyLast p f as).map g := by
  induction as with
  | nil => rfl
  | cons a as ih =>
    have hrest := ih (fun b hb => hp b (List.mem_cons_of_mem _ hb))
      fun b hb => hf b (List.mem_cons_of_mem _ hb)
    have hany := any_map_of_eq fun b hb => hp b (List.mem_cons_of_mem a hb)
    rw [List.map_cons, modifyLast, modifyLast, hp a List.mem_cons_self, hany, hrest]
    by_cases ha : (p a && !as.any p) = true
    · rw [if_pos ha, if_pos ha, List.map_cons, hf a List.mem_cons_self (Bool.and_eq_true_iff.1 ha).1]
    · rw [if_neg ha, if_neg ha, List.map_cons]

theorem flatMap_modifyLast_subperm {f : α → α} {k : α → List β} {new : List β} {as : List α}
    (hf : ∀ a ∈ as, p a = true → (k (f a)).Subperm (k a ++ new)) :
    ((modifyLast p f as).flatMap k).Subperm (as.flatMap k ++ new) := by
  induction as with
  | nil => exact List.nil_subperm
  | cons a as ih =>
    have hrest := ih fun b hb => hf b (List.mem_cons_of_mem _ hb)
    rw [modifyLast]
    by_cases ha : (p a && !as.any p) = true
    · rw [if_pos ha, List.flatMap_cons, List.flatMap_cons, List.append_assoc]
      have hhead := hf a List.mem_cons_self (Bool.and_eq_true_iff.1 ha).1
      refine ((List.subperm_append_right _).2 hhead).trans ?_
      rw [List.append_assoc]
      exact ((List.perm_append_comm).append_left _).subperm
    · rw [if_neg ha, List.flatMap_cons, List.flatMap_cons, List.append_assoc]
      exact (List.subperm_append_left _).2 hrest

theorem flatMap_modifyLast_perm {f : α → α} {k : α → List β} {new : List β} {as : List α}
    (hany : as.any p = true) (hf : ∀ a ∈ as, p a = true → (k (f a)).Perm (k a ++ new)) :
    ((modifyLast p f as).flatMap k).Perm (as.flatMap k ++ new) := by
  obtain ⟨l, a, r, rfl, ha, hr⟩ := exists_last_of_any hany
  have hmiddle := (hf a (List.mem_append_right _ List.mem_cons_self) ha).append_right (r.flatMap k)
  rw [modifyLast_append_cons ha hr]
  simp only [List.flatMap_append, List.flatMap_cons, List.append_assoc] at hmiddle ⊢
  exact ((hmiddle.trans (List.perm_append_comm.append_left _)).append_left _)

namespace Part

theorem flattenAll_eq (ps : List Part) : flattenAll ps = ps.flatMap flatten := by
  induction ps with
  | nil => rfl
  | cons p ps ih => simp [flattenAll, ih]

theorem flattenAll_append (ps qs : List Part) :
    flattenAll (ps ++ qs) = flattenAll ps ++ flattenAll qs := by
  simp only [flattenAll_eq, List.flatMap_append]

theorem flatten_eq (p : Part) : p.flatten = p :: flattenAll p.children := by
  cases p <;> rfl

theorem flatten_ofAtom (key : Key) (a : Atom) : (ofAtom key a).flatten = [ofAtom key a] := by
  cases a <;> rfl

theorem ofAtom_key (key : Key) (a : Atom) : (ofAtom key a).key = key := by
  cases a <;> rfl

theorem ofAtoms_keys (key : Key) (l : List Atom) :
    (ofAtoms key l).map Part.key = List.range' key l.length := by
  induction l generalizing key with
  | nil => rfl
  | cons a l ih => simp [ofAtoms, ofAtom_key, ih, List.range'_succ]

theorem flattenAll_ofAtoms (key : Key) (l : List Atom) :
    flattenAll (ofAtoms key l) = ofAtoms key l := by
  induction l generalizing key with
  | nil => rfl
  | cons a l ih => simp [ofAtoms, flattenAll, flatten_ofAtom, ih]

theorem isGroup_of_mem_ofAtoms {key : Key} {l : List Atom} :
    ∀ {p : Part}, p ∈ ofAtoms key l → p.isGroup = false := by
  induction l generalizing key with
  | nil => simp [ofAtoms]
  | cons a l ih =>
    intro p hp
    obtain rfl | hp := List.mem_cons.1 hp
    · cases a <;> rfl
    · exact ih hp

theorem updateAll_eq (key : Key) (f : Part → Part) (ps : List Part) :
    updateAll key f ps = ps.map (update key f) := by
  induction ps with
  | nil => rfl
  | cons p ps ih => simp [updateAll, ih]

theorem foldl_push (h : Head) (shape : Shape) (cs new : List Part) :
    new.foldl (fun g c => push c g) (.group h shape cs false) =
      .group h shape (cs ++ new) false := by
  induction new generalizing cs with
  | nil => rw [List.append_nil, List.foldl_nil]
  | cons c new ih => rw [List.foldl_cons, push, ih, List.append_assoc, List.singleton_append]

theorem update_of_key_eq {p : Part} {key : Key} {f : Part → Part} (h : p.key = key) :
    p.update key f = f p := by
  cases p with
  | leaf head content =>
    have hkey : head.key = key := h
    simp [update, hkey]
  | group head shape cs c =>
    have hkey : head.key = key := h
    simp [update, hkey]

mutual

theorem update_of_notMem {key : Key} {f : Part → Part} :
    (p : Part) → key ∉ p.flatten.map Part.key → p.update key f = p
  | .leaf h content, hkey => by
    have hne : h.key ≠ key := fun heq => hkey (by simp [flatten, Part.key, head, heq])
    simp [update, hne]
  | .group h shape cs c, hkey => by
    simp only [flatten, List.map_cons, List.mem_cons, not_or] at hkey
    have hne : h.key ≠ key := fun heq => hkey.1 heq.symm
    simp [update, hne, updateAll_of_notMem cs hkey.2]

theorem updateAll_of_notMem {key : Key} {f : Part → Part} :
    (ps : List Part) → key ∉ (flattenAll ps).map Part.key → updateAll key f ps = ps
  | [], _ => rfl
  | p :: ps, hkey => by
    simp only [flattenAll, List.map_append, List.mem_append, not_or] at hkey
    simp [updateAll, update_of_notMem p hkey.1, updateAll_of_notMem ps hkey.2]

end

theorem key_mem_flatten (p : Part) : p.key ∈ p.flatten.map Part.key := by
  simp [flatten_eq]

theorem updateAll_append_cons {l r : List Part} {g : Part} {f : Part → Part}
    (hkeys : ((flattenAll (l ++ g :: r)).map Part.key).Nodup) :
    updateAll g.key f (l ++ g :: r) = l ++ f g :: r := by
  simp only [flattenAll_eq, List.flatMap_append, List.flatMap_cons, List.map_append,
    List.nodup_append] at hkeys
  obtain ⟨-, ⟨-, -, hr⟩, hl⟩ := hkeys
  have hleft : g.key ∉ (flattenAll l).map Part.key := by
    rw [flattenAll_eq]
    intro hmem
    exact hl _ hmem _ (List.mem_append_left _ g.key_mem_flatten) rfl
  have hright : g.key ∉ (flattenAll r).map Part.key := by
    rw [flattenAll_eq]
    intro hmem
    exact hr _ g.key_mem_flatten _ hmem rfl
  have hl' := updateAll_of_notMem (f := f) l hleft
  have hr' := updateAll_of_notMem (f := f) r hright
  rw [updateAll_eq] at hl' hr' ⊢
  simp [hl', hr', update_of_key_eq]

end Part

namespace Tree

variable {t : Tree} {anchor : Part → Bool}

theorem filter_flattenAll : (ps : List Part) →
    (∀ p ∈ ps, ∀ c ∈ Part.flattenAll p.children, (c.isGroup && anchor c) = false) →
    (Part.flattenAll ps).filter (fun p => p.isGroup && anchor p) =
      ps.filter fun p => p.isGroup && anchor p
  | [], _ => rfl
  | p :: ps, hdeep => by
    have hp : (Part.flattenAll p.children).filter (fun c => c.isGroup && anchor c) = [] :=
      List.filter_eq_nil_iff.2 fun c hc => by simp [hdeep p List.mem_cons_self c hc]
    have hrest := filter_flattenAll ps fun q hq => hdeep q (List.mem_cons_of_mem _ hq)
    rw [Part.flattenAll, Part.flatten_eq, List.filter_append, hrest, List.filter_cons, hp,
      List.filter_cons]
    by_cases hanchor : (p.isGroup && anchor p) = true <;> simp [hanchor]

/-- The group a part goes into, where only top-level groups satisfy the predicate. -/
theorem addToLastWhere_eq (p : Part) (hkeys : (t.flatten.map Part.key).Nodup)
    (hdeep : ∀ p ∈ t.parts, ∀ c ∈ Part.flattenAll p.children, (c.isGroup && anchor c) = false) :
    t.addToLastWhere p anchor =
      if t.parts.any fun p => p.isGroup && anchor p then
        { t with parts := modifyLast (fun p => p.isGroup && anchor p) (Part.push p) t.parts }
      else t.add p := by
  rw [addToLastWhere, lastGroup?, flatten, filter_flattenAll t.parts hdeep]
  by_cases hany : (t.parts.any fun p => p.isGroup && anchor p) = true
  · obtain ⟨l, g, r, hparts, hg, hr⟩ := exists_last_of_any hany
    have hlast : (t.parts.filter fun p => p.isGroup && anchor p).getLast? = some g := by
      rw [hparts]
      exact getLast?_filter_append_cons l hg hr
    rw [flatten, hparts] at hkeys
    rw [hlast, if_pos hany]
    simp only [hparts]
    rw [Part.updateAll_append_cons hkeys,
      modifyLast_append_cons (p := fun p => p.isGroup && anchor p) hg hr]
  · have hnone : (t.parts.filter fun p => p.isGroup && anchor p) = [] :=
      List.filter_eq_nil_iff.2 fun c hc hanchor => hany (List.any_eq_true.2 ⟨c, hc, hanchor⟩)
    rw [hnone, if_neg hany]
    rfl

theorem lastTableItem_congr {t t' : Tree} (h : t.flatten.filter (fun p => p.tag.isTableItem) =
    t'.flatten.filter fun p => p.tag.isTableItem) (dialect : Dialect) (qualify : Bool) :
    (t.view dialect qualify).lastTableItem = (t'.view dialect qualify).lastTableItem := by
  rw [view, view, h]

end Tree

end SqlComposer
