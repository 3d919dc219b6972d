import SqlComposer.Proofs.Tree

/-!
# Drafts with other parts in the same places

Where a part goes depends on tags and columns, and on keys only as far as they tell parts apart. So
every operation carries over from a draft to the draft with parts of the same tags, columns and
children in its places, whose keys are renamed one to one.
-/
namespace SqlComposer

theorem map_insertBehind {α β : Type} (f : α → β) (p : β → Bool) (a : α) (as : List α) :
    insertBehind p (f a) (as.map f) = (insertBehind (fun b => p (f b)) a as).map f := by
  induction as with
  | nil => rfl
  | cons b as ih =>
    simp only [List.map_cons, insertBehind, ih, List.any_map, Function.comp_def]
    split_ifs <;> rfl

/-- A change of parts that renames their keys one to one and keeps their tags, their columns and
what they are made of. -/
structure Part.Carries (ρ : Key → Key) (φ : Part → Part) : Prop where
  injective : Function.Injective ρ
  leaf : ∀ h content, ∃ content', φ (.leaf h content) = .leaf { h with key := ρ h.key } content'
  group : ∀ h shape cs isClosed, φ (.group h shape cs isClosed) =
    .group { h with key := ρ h.key } shape (cs.map φ) isClosed
  field? : ∀ p, (φ p).field? = p.field?

variable {ρ : Key → Key} {φ : Part → Part}

namespace Part.Carries

section

variable (c : Carries ρ φ)
include c

theorem elim {P : Part → Part → Prop}
    (hleaf : ∀ h content content',
      P (.leaf h content) (.leaf { h with key := ρ h.key } content'))
    (hgroup : ∀ h shape cs isClosed, P (.group h shape cs isClosed)
      (.group { h with key := ρ h.key } shape (cs.map φ) isClosed)) (p : Part) : P p (φ p) := by
  cases p with
  | leaf h content =>
    obtain ⟨content', heq⟩ := c.leaf h content
    rw [heq]
    exact hleaf h content content'
  | group h shape cs isClosed =>
    rw [c.group]
    exact hgroup h shape cs isClosed

theorem head (p : Part) : (φ p).head = { p.head with key := ρ p.key } :=
  c.elim (P := fun p p' => p'.head = { p.head with key := ρ p.key })
    (fun _ _ _ => rfl) (fun _ _ _ _ => rfl) p

theorem key (p : Part) : (φ p).key = ρ p.key := by
  rw [Part.key, c.head]

theorem tag (p : Part) : (φ p).tag = p.tag := by
  rw [Part.tag, c.head, Part.tag]

theorem isGroup (p : Part) : (φ p).isGroup = p.isGroup :=
  c.elim (P := fun p p' => p'.isGroup = p.isGroup) (fun _ _ _ => rfl) (fun _ _ _ _ => rfl) p

theorem children (p : Part) : (φ p).children = p.children.map φ :=
  c.elim (P := fun p p' => p'.children = p.children.map φ)
    (fun _ _ _ => rfl) (fun _ _ _ _ => rfl) p

theorem clause (key : Key) (tag : Tag) (entity tableAlias : Option String) (cs : List Part) :
    φ (.clause key tag entity tableAlias cs) =
      .clause (ρ key) tag entity tableAlias (cs.map φ) :=
  c.group _ _ cs false

theorem field (key : Key) (f : ColumnRef) : φ (.field key f) = .field (ρ key) f := by
  obtain ⟨content', hleaf⟩ := c.leaf ⟨key, .item, some f.resultName⟩ (.field f)
  have hfield := c.field? (.field key f)
  rw [Part.field, hleaf] at hfield
  cases content' with
  | field f' =>
    obtain rfl := Option.some.inj hfield
    exact hleaf
  | _ => cases hfield

end

mutual

theorem flatten (c : Carries ρ φ) : (p : Part) → (φ p).flatten = p.flatten.map φ
  | .leaf h content => by
    obtain ⟨content', hleaf⟩ := c.leaf h content
    rw [Part.flatten, List.map_cons, hleaf]
    rfl
  | .group h shape cs isClosed => by
    rw [Part.flatten, List.map_cons, ← flattenAll c cs, c.group]
    rfl

theorem flattenAll (c : Carries ρ φ) : (ps : List Part) →
    Part.flattenAll (ps.map φ) = (Part.flattenAll ps).map φ
  | [] => rfl
  | p :: ps => by
    rw [List.map_cons, Part.flattenAll, flatten c p, flattenAll c ps, Part.flattenAll,
      List.map_append]

end

/-! ### Changes at a key -/

section

variable (c : Carries ρ φ)
include c

theorem key_eq_iff {p : Part} {k : Key} : (φ p).key = ρ k ↔ p.key = k := by
  rw [c.key, c.injective.eq_iff]

theorem push (child p : Part) : φ (Part.push child p) = Part.push (φ child) (φ p) := by
  cases p with
  | leaf h content =>
    obtain ⟨content', hleaf⟩ := c.leaf h content
    rw [Part.push, hleaf, Part.push]
  | group h shape cs isClosed =>
    cases isClosed with
    | true => rw [Part.push, c.group, Part.push]
    | false =>
      rw [Part.push, c.group, c.group, Part.push, List.map_append, List.map_cons, List.map_nil]

theorem foldl_push (new : List Part) (p : Part) :
    φ (new.foldl (fun g child => Part.push child g) p) =
      (new.map φ).foldl (fun g child => Part.push child g) (φ p) := by
  induction new generalizing p with
  | nil => rfl
  | cons child new ih => rw [List.foldl_cons, ih, c.push, List.map_cons, List.foldl_cons]

theorem close (p : Part) : φ p.close = (φ p).close := by
  cases p with
  | leaf h content =>
    obtain ⟨content', hleaf⟩ := c.leaf h content
    rw [Part.close, hleaf, Part.close]
  | group h shape cs isClosed => rw [Part.close, c.group, c.group, Part.close]

end

mutual

theorem update (c : Carries ρ φ) {f f' : Part → Part} (hf : ∀ p, φ (f p) = f' (φ p)) (k : Key) :
    (p : Part) → φ (p.update k f) = (φ p).update (ρ k) f'
  | .leaf h content => by
    obtain ⟨content', hleaf⟩ := c.leaf h content
    have hself := hf (.leaf h content)
    rw [hleaf] at hself ⊢
    rw [Part.update, Part.update]
    simp only [c.injective.eq_iff]
    split_ifs
    · exact hself
    · exact hleaf
  | .group h shape cs isClosed => by
    have hself := hf (.group h shape cs isClosed)
    rw [c.group] at hself ⊢
    rw [Part.update, Part.update]
    simp only [c.injective.eq_iff]
    split_ifs
    · exact hself
    · rw [c.group, updateAll c hf k cs]

theorem updateAll (c : Carries ρ φ) {f f' : Part → Part} (hf : ∀ p, φ (f p) = f' (φ p))
    (k : Key) : (ps : List Part) →
    (Part.updateAll k f ps).map φ = Part.updateAll (ρ k) f' (ps.map φ)
  | [] => rfl
  | p :: ps => by
    rw [Part.updateAll, List.map_cons, update c hf k p, updateAll c hf k ps, List.map_cons,
      Part.updateAll]

end

theorem takeDirect? (c : Carries ρ φ) (k : Key) (ps : List Part) :
    Part.takeDirect? (ρ k) (ps.map φ) =
      (Part.takeDirect? k ps).map (Prod.map φ (List.map φ)) := by
  induction ps with
  | nil => rfl
  | cons p ps ih =>
    rw [List.map_cons, Part.takeDirect?, Part.takeDirect?, ih]
    simp only [c.key_eq_iff]
    split_ifs
    · rfl
    · cases Part.takeDirect? k ps <;> rfl

mutual

theorem takeBelow? (c : Carries ρ φ) (k : Key) : (p : Part) →
    Part.takeBelow? (ρ k) (φ p) = (Part.takeBelow? k p).map (Prod.map φ φ)
  | .leaf h content => by
    obtain ⟨content', hleaf⟩ := c.leaf h content
    rw [hleaf]
    rfl
  | .group h shape cs isClosed => by
    have hnested := takeNested? c k cs
    rw [c.group, Part.takeBelow?, Part.takeBelow?, c.takeDirect?, hnested]
    cases Part.takeDirect? k cs with
    | some taken => simp only [Option.map_some, Prod.map, c.group]
    | none => simp only [Option.map_none, Option.map_map, Function.comp_def, Prod.map, c.group]

theorem takeNested? (c : Carries ρ φ) (k : Key) : (ps : List Part) →
    Part.takeNested? (ρ k) (ps.map φ) = (Part.takeNested? k ps).map (Prod.map φ (List.map φ))
  | [] => rfl
  | p :: ps => by
    rw [List.map_cons, Part.takeNested?, Part.takeNested?, takeBelow? c k p, takeNested? c k ps]
    cases Part.takeBelow? k p with
    | some taken => rfl
    | none => cases Part.takeNested? k ps <;> rfl

end

theorem take? (c : Carries ρ φ) (k : Key) (ps : List Part) :
    Part.take? (ρ k) (ps.map φ) = (Part.take? k ps).map (Prod.map φ (List.map φ)) := by
  rw [Part.take?, Part.take?, c.takeDirect?, c.takeNested?]
  cases Part.takeDirect? k ps <;> rfl

end Part.Carries

namespace Tree

def carried (φ : Part → Part) (t : Tree) : Tree :=
  { t with parts := t.parts.map φ }

variable (t : Tree) (c : Part.Carries ρ φ)
include c

theorem flatten_carried : (t.carried φ).flatten = t.flatten.map φ :=
  c.flattenAll t.parts

theorem find?_carried (k : Key) : (t.carried φ).find? (ρ k) = (t.find? k).map φ := by
  rw [find?, t.flatten_carried c, List.find?_map, find?]
  simp only [Function.comp_def, beq_eq_decide, c.key_eq_iff]

theorem contains_carried (tag : Tag) : (t.carried φ).contains tag = t.contains tag := by
  simp only [contains, carried, List.any_map, Function.comp_def, c.tag]

theorem partsOf_carried (tag : Tag) : (t.carried φ).partsOf tag = (t.partsOf tag).map φ := by
  simp only [partsOf, carried, List.filter_map, Function.comp_def, c.tag]

omit c in
theorem add_carried (p : Part) : (t.add p).carried φ = (t.carried φ).add (φ p) := by
  simp only [add, carried, List.map_append, List.map_cons, List.map_nil]

theorem addBefore_carried (p : Part) (tag : Tag) :
    (t.addBefore p tag).carried φ = (t.carried φ).addBefore (φ p) tag := by
  rw [addBefore, addBefore, t.contains_carried c]
  split_ifs
  · simp only [carried, map_insertAhead, c.tag]
  · rfl

theorem addAfter_carried (p : Part) (tag : Tag) :
    (t.addAfter p tag).carried φ = (t.carried φ).addAfter (φ p) tag := by
  simp only [addAfter, carried, map_insertBehind, c.tag]

omit c in
theorem addAheadOf_carried {anchor anchor' : Part → Bool} (h : ∀ p, anchor' (φ p) = anchor p)
    (p : Part) : (t.addAheadOf p anchor).carried φ = (t.carried φ).addAheadOf (φ p) anchor' := by
  simp only [addAheadOf, carried, map_insertAhead, h]

theorem lastGroup?_carried {anchor anchor' : Part → Bool} (h : ∀ p, anchor' (φ p) = anchor p) :
    (t.carried φ).lastGroup? anchor' = (t.lastGroup? anchor).map φ := by
  simp only [lastGroup?, t.flatten_carried c, List.filter_map, List.getLast?_map,
    Function.comp_def, c.isGroup, h]

theorem update_carried {f f' : Part → Part} (hf : ∀ p, φ (f p) = f' (φ p)) (k : Key) :
    (t.update k f).carried φ = (t.carried φ).update (ρ k) f' := by
  simp only [update, carried, c.updateAll hf]

theorem update_foldl_push_carried (k : Key) (new : List Part) :
    (t.update k fun g => new.foldl (fun g child => Part.push child g) g).carried φ =
      (t.carried φ).update (ρ k) fun g =>
        (new.map φ).foldl (fun g child => Part.push child g) g :=
  t.update_carried c (c.foldl_push new) k

theorem addToLastWhere_carried {anchor anchor' : Part → Bool} (h : ∀ p, anchor' (φ p) = anchor p)
    (p : Part) :
    (t.addToLastWhere p anchor).carried φ = (t.carried φ).addToLastWhere (φ p) anchor' := by
  rw [addToLastWhere, addToLastWhere, t.lastGroup?_carried c h]
  cases t.lastGroup? anchor with
  | none => exact t.add_carried p
  | some g =>
    have hupdate := t.update_carried c (c.push p) g.key
    rw [← c.key] at hupdate
    exact hupdate

theorem addToLast_carried (p : Part) (tag : Tag) :
    (t.addToLast p tag).carried φ = (t.carried φ).addToLast (φ p) tag :=
  t.addToLastWhere_carried c (fun q => by rw [c.tag]) p

theorem remove?_carried (k : Key) :
    (t.carried φ).remove? (ρ k) = (t.remove? k).map (Prod.map φ (Tree.carried φ)) := by
  rw [remove?, carried, c.take?, remove?, Option.map_map, Option.map_map]
  rfl

end Tree

/-- From `key'` on, `n` keys are the renamed ones of those from `key` on. -/
def Follows (ρ : Key → Key) (key key' : Key) (n : Nat) : Prop :=
  ∀ i < n, ρ (key + i) = key' + i

instance (ρ : Key → Key) (key key' : Key) (n : Nat) : Decidable (Follows ρ key key' n) :=
  inferInstanceAs (Decidable (∀ i < n, _))

namespace Follows

variable {key key' : Key} {m n : Nat}

theorem first (h : Follows ρ key key' (n + 1)) : ρ key = key' :=
  h 0 (Nat.succ_pos n)

theorem rest (h : Follows ρ key key' (n + 1)) : Follows ρ (key + 1) (key' + 1) n := by
  intro i hi
  rw [Nat.add_right_comm, Nat.add_right_comm key']
  exact h (i + 1) (Nat.succ_lt_succ hi)

theorem left (h : Follows ρ key key' (m + n)) : Follows ρ key key' m :=
  fun i hi => h i (Nat.lt_add_right n hi)

theorem right (h : Follows ρ key key' (m + n)) : Follows ρ (key + m) (key' + m) n := by
  intro i hi
  rw [Nat.add_assoc, Nat.add_assoc]
  exact h (m + i) (Nat.add_lt_add_left hi m)

theorem same (key : Key) (n : Nat) : Follows id key key n :=
  fun _ _ => rfl

end Follows

namespace Draft

def carried (φ : Part → Part) (key : Key) (d : Draft) : Draft :=
  { d.toTree.carried φ with nextKey := key }

theorem spend_carried (d : Draft) {t t' : Tree} (h : t.carried φ = t') (key : Key) (n : Nat) :
    (d.carried φ key).spend n t' = (d.spend n t).carried φ (key + n) := by
  rw [← h]
  rfl

variable (c : Part.Carries ρ φ)
include c

theorem insertSource_carried (d : Draft) {before before' : Part → Bool}
    (h : ∀ p, before' (φ p) = before p) (tag : Tag) (entity : String) (tableAlias : Option String)
    {key : Key} (hkey : ρ d.nextKey = key) :
    (d.carried φ key).insertSource tag entity tableAlias before' =
      (d.insertSource tag entity tableAlias before).carried φ (key + 1) := by
  have hclause (t : Tree) := t.addAheadOf_carried h
    (.clause d.nextKey tag (some entity) tableAlias)
  simp only [c.clause, hkey] at hclause
  cases tableAlias with
  | none => exact d.spend_carried (hclause d.toTree) key 1
  | some a => exact d.spend_carried (hclause (d.setAlias entity a)) key 1

theorem addField_carried (d : Draft) (f : ColumnRef) {key : Key} (hkey : ρ d.nextKey = key) :
    (d.carried φ key).addField f = (d.addField f).carried φ (key + 1) := by
  have hfield := d.toTree.addToLast_carried c (.field d.nextKey f) .select
  rw [c.field, hkey] at hfield
  exact d.spend_carried hfield key 1

theorem closeSelect_carried (d : Draft) (key : Key) :
    (d.carried φ key).closeSelect = d.closeSelect.carried φ key := by
  have hpart (p : Part) : (if (φ p).tag == .select then (φ p).close else φ p) =
      φ (if p.tag == .select then p.close else p) := by
    rw [c.tag]
    split_ifs
    · exact (c.close p).symm
    · rfl
  simp only [closeSelect, carried, Tree.carried, List.map_map, Function.comp_def, hpart]

/-! ### Select lists that are supplied -/

theorem covers_carried (f : ColumnRef) (p : Part) : covers f (φ p) = covers f p := by
  rw [covers, covers, c.field?]

omit c in
def Supply.carried (ρ : Key → Key) (φ : Part → Part) (key : Key) (s : Supply) : Supply :=
  ⟨s.children.map φ, s.unused.map ρ, key⟩

theorem Supply.start_carried (children : List Part) (key key' : Key) :
    start (children.map φ) key' = (start children key).carried ρ φ key' := by
  simp only [start, carried, List.filter_map, List.map_map, Function.comp_def, c.field?, c.key]

theorem Supply.request_carried (s : Supply) (f : ColumnRef) :
    ∃ n, (s.request f).nextKey = s.nextKey + n ∧ ∀ key', Follows ρ s.nextKey key' n →
      (s.carried ρ φ key').request f = (s.request f).carried ρ φ (key' + n) := by
  have hmapped (key' : Key) : ((s.carried ρ φ key').children.filter (covers f)).map Part.key =
      ((s.children.filter (covers f)).map Part.key).map ρ := by
    simp only [carried, List.filter_map, List.map_map, Function.comp_def, covers_carried c, c.key]
  simp only [request, hmapped]
  generalize (s.children.filter (covers f)).map Part.key = mapped
  by_cases hnone : mapped = []
  · subst hnone
    refine ⟨1, rfl, fun key' hkey => ?_⟩
    simp only [List.map_nil, if_true, carried, List.map_append, List.map_cons, c.field,
      hkey.first]
  · have hsome : mapped.map ρ ≠ [] := fun h => hnone (List.map_eq_nil_iff.1 h)
    have hkeys (k : Key) : (mapped.map ρ).contains (ρ k) = mapped.contains k := by
      simp [List.contains_eq_mem, List.mem_map_of_injective c.injective]
    refine ⟨0, by rw [if_neg hnone, Nat.add_zero], fun key' _ => ?_⟩
    simp only [if_neg hnone, if_neg hsome, carried, List.filter_map, Function.comp_def, hkeys,
      Nat.add_zero]

theorem Supply.foldl_request_carried (fields : List ColumnRef) (s : Supply) :
    ∃ n, (fields.foldl request s).nextKey = s.nextKey + n ∧
      ∀ key', Follows ρ s.nextKey key' n → fields.foldl request (s.carried ρ φ key') =
        (fields.foldl request s).carried ρ φ (key' + n) := by
  induction fields generalizing s with
  | nil => exact ⟨0, rfl, fun _ _ => rfl⟩
  | cons f fields ih =>
    obtain ⟨m, hm, hfirst⟩ := s.request_carried c f
    obtain ⟨n, hn, hrest⟩ := ih (s.request f)
    refine ⟨m + n, by rw [List.foldl_cons, hn, hm, Nat.add_assoc], fun key' hkey => ?_⟩
    rw [List.foldl_cons, List.foldl_cons, hfirst key' hkey.left,
      hrest (key' + m) (hm ▸ hkey.right), Nat.add_assoc]

theorem foldl_dropKey_carried (keys : List Key) (children : List Part) :
    (keys.map ρ).foldl dropKey (children.map φ) = (keys.foldl dropKey children).map φ := by
  induction keys generalizing children with
  | nil => rfl
  | cons k keys ih =>
    have hdrop : dropKey (children.map φ) (ρ k) = (dropKey children k).map φ := by
      rw [dropKey, dropKey, c.take?]
      cases Part.take? k children <;> rfl
    rw [List.map_cons, List.foldl_cons, List.foldl_cons, hdrop, ih]

theorem supplied_carried (children : List Part) (key : Key) (fields : List ColumnRef) :
    ∃ n, (supplied children key fields).2 = key + n ∧ ∀ key', Follows ρ key key' n →
      supplied (children.map φ) key' fields =
        ((supplied children key fields).1.map φ, key' + n) := by
  obtain ⟨n, hn, hrequests⟩ := Supply.foldl_request_carried c fields (.start children key)
  refine ⟨n, hn, fun key' hkey => ?_⟩
  rw [supplied, supplied, Supply.start_carried c children key, hrequests key' hkey]
  exact congrArg (·, _) (foldl_dropKey_carried c _ _)

theorem supplyAll_carried (fields : List ColumnRef) (ps : List Part) (key : Key) :
    ∃ n, (supplyAll fields ps key).2 = key + n ∧ ∀ key', Follows ρ key key' n →
      supplyAll fields (ps.map φ) key' = ((supplyAll fields ps key).1.map φ, key' + n) := by
  induction ps generalizing key with
  | nil => exact ⟨0, rfl, fun _ _ => rfl⟩
  | cons p ps ih =>
    cases p with
    | leaf h content =>
      obtain ⟨content', hleaf⟩ := c.leaf h content
      obtain ⟨n, hn, hrest⟩ := ih key
      refine ⟨n, hn, fun key' hkey => ?_⟩
      simp only [List.map_cons, hleaf, supplyAll, hrest key' hkey]
    | group h shape cs isClosed =>
      cases isClosed with
      | true =>
        obtain ⟨n, hn, hrest⟩ := ih key
        refine ⟨n, hn, fun key' hkey => ?_⟩
        simp only [List.map_cons, c.group, supplyAll, hrest key' hkey]
      | false =>
        by_cases htag : h.tag = .select
        · obtain ⟨m, hm, hlist⟩ := supplied_carried c cs key fields
          obtain ⟨n, hn, hrest⟩ := ih (supplied cs key fields).2
          refine ⟨m + n, ?_, fun key' hkey => ?_⟩
          · rw [hm, Nat.add_assoc] at hn
            simp only [supplyAll, if_pos htag, hm, hn]
          · simp only [List.map_cons, c.group, supplyAll, if_pos htag, hlist key' hkey.left,
              hrest (key' + m) (hm ▸ hkey.right), Nat.add_assoc]
        · obtain ⟨n, hn, hrest⟩ := ih key
          refine ⟨n, ?_, fun key' hkey => ?_⟩
          · simp only [supplyAll, if_neg htag, hn]
          · simp only [List.map_cons, c.group, supplyAll, if_neg htag, hrest key' hkey]

theorem supplyFields_carried (d : Draft) (fields : List ColumnRef) :
    ∃ n, (d.supplyFields fields).nextKey = d.nextKey + n ∧
      ∀ key', Follows ρ d.nextKey key' n → (d.carried φ key').supplyFields fields =
        (d.supplyFields fields).carried φ (key' + n) := by
  obtain ⟨n, hn, hall⟩ := supplyAll_carried c fields d.parts d.nextKey
  refine ⟨n, hn, fun key' hkey => ?_⟩
  have hparts : supplyAll fields (d.carried φ key').parts (d.carried φ key').nextKey =
      ((supplyAll fields d.parts d.nextKey).1.map φ, key' + n) := hall key' hkey
  rw [supplyFields, hparts]
  rfl

end Draft

end SqlComposer
