import SqlComposer.Proofs.Draft.Refill

/-!
# Edits of a draft

Everything that can be done to a draft, as data: parts that were made outside of it are put in,
taken out and closed, and the operations of the statement builders make parts of their own. An
insertion is one block of the sequence of the parts, and taking a part out takes its subtree.
-/
namespace SqlComposer

open SqlComposer.Part (keysAll sequenceAll)

/-- An edit of a draft. Parts that come with an edit have taken their keys beforehand. -/
inductive Edit where
  | makeParts (n : Nat)
  | add (p : Part)
  | addBefore (p : Part) (tag : Tag)
  | addAfter (p : Part) (tag : Tag)
  | addAheadOf (p : Part) (anchor : Part → Bool)
  | addToLast (p : Part) (tag : Tag)
  | addToLastWhere (p : Part) (anchor : Part → Bool)
  | push (group : Key) (p : Part)
  | remove (key : Key)
  | close (group : Key)
  | addText (tag : Tag) (s : String)
  | addList (tag : Tag)
  | insertSource (tag : Tag) (entity : String) (tableAlias : Option String) (before : Part → Bool)
  | addExpression (scope : Scope) (e : Expr) (tag : Tag)
  | nestExpression (scope : Scope) (e : Expr) (tag : Tag) (anchor : Part → Bool)
  | addRestriction (scope : Scope) (e : Expr) (before : Part → Bool)
  | extendClause (clause : Key) (scope : Scope) (e : Expr)
  | addField (f : ColumnRef)
  | supplyFields (fields : List ColumnRef)
  | closeSelect

namespace Edit

def apply (d : Draft) : Edit → Draft
  | makeParts n => d.spend n d.toTree
  | add p => d.spend 0 (d.add p)
  | addBefore p tag => d.spend 0 (d.addBefore p tag)
  | addAfter p tag => d.spend 0 (d.addAfter p tag)
  | addAheadOf p anchor => d.spend 0 (d.addAheadOf p anchor)
  | addToLast p tag => d.spend 0 (d.addToLast p tag)
  | addToLastWhere p anchor => d.spend 0 (d.addToLastWhere p anchor)
  | push group p => d.spend 0 (d.update group (Part.push p))
  | remove key => d.spend 0 (((d.remove? key).map Prod.snd).getD d.toTree)
  | close group => d.spend 0 (d.update group Part.close)
  | addText tag s => d.addText tag s
  | addList tag => d.addList tag
  | insertSource tag entity tableAlias before => d.insertSource tag entity tableAlias before
  | addExpression scope e tag => (d.addExpression scope e tag).value
  | nestExpression scope e tag anchor => (d.nestExpression scope e tag anchor).value
  | addRestriction scope e before => (d.addRestriction scope e before).value
  | extendClause clause scope e => (d.extendClause clause scope e).value
  | addField f => d.addField f
  | supplyFields fields => d.supplyFields fields
  | closeSelect => d.closeSelect

def run (d : Draft) (edits : List Edit) : Draft :=
  edits.foldl apply d

/-- The parts that come with an edit. -/
def outside : Edit → List Part
  | add p | addBefore p _ | addAfter p _ | addAheadOf p _ | addToLast p _ | addToLastWhere p _
  | push _ p => [p]
  | _ => []

def hasTarget (d : Draft) : Edit → Bool
  | push group _ => (d.find? group).any Part.isGroup
  | _ => true

/-- The parts that come with an edit have keys of their own, which were taken beforehand. -/
def Fits (d : Draft) (edit : Edit) : Prop :=
  edit.hasTarget d = true ∧ (keysAll edit.outside).Nodup ∧
    ∀ k ∈ keysAll edit.outside, k < d.nextKey ∧ k ∉ d.keys

instance (d : Draft) (edit : Edit) : Decidable (edit.Fits d) :=
  inferInstanceAs (Decidable (_ ∧ _ ∧ _))

def FitAll : Draft → List Edit → Prop
  | _, [] => True
  | d, edit :: edits => edit.Fits d ∧ FitAll (edit.apply d) edits

instance decidableFitAll : (d : Draft) → (edits : List Edit) → Decidable (FitAll d edits)
  | _, [] => inferInstanceAs (Decidable True)
  | d, edit :: edits =>
    have := decidableFitAll (edit.apply d) edits
    inferInstanceAs (Decidable (_ ∧ _))

/-- The group that takes the parts of an edit, unless they stand by themselves. -/
def target? (d : Draft) : Edit → Option Part
  | addToLast _ tag => d.lastGroup? fun p => p.tag == tag
  | addToLastWhere _ anchor | nestExpression _ _ _ anchor => d.lastGroup? anchor
  | push group _ | extendClause group _ _ => (d.find? group).filter Part.isGroup
  | addRestriction _ _ _ =>
    if d.contains .whereClause then d.lastGroup? fun p => p.tag == .whereClause else none
  | addField _ => d.lastGroup? fun p => p.tag == .select
  | _ => none

def expression (d : Draft) (scope : Scope) (e : Expr) (tag : Tag) : Part :=
  .clause d.nextKey tag none none (Part.ofAtoms (d.nextKey + 1) (scope.atoms e).value)

/-- The parts that an edit puts in where nothing is closed. -/
def inserted (d : Draft) : Edit → List Part
  | addText tag s => [.text d.nextKey tag s]
  | addList tag => [.list d.nextKey tag]
  | insertSource tag entity tableAlias _ => [.clause d.nextKey tag (some entity) tableAlias]
  | addExpression scope e tag | nestExpression scope e tag _ => [expression d scope e tag]
  | addRestriction scope e _ =>
    [expression d scope e (if d.contains .whereClause then .andClause else .whereClause)]
  | extendClause group scope e =>
    if (d.find? group).any Part.isGroup then Part.ofAtoms d.nextKey (scope.atoms e).value else []
  | addField f => [.field d.nextKey f]
  | edit => edit.outside

/-- The new parts are one block of the sequence, right behind all that was in their target; a
closed target drops them. -/
def Inserts (target : Option Part) (new old result : List Part) : Prop :=
  ∃ l r, old = l ++ r ∧ result = l ++ (if target.any Part.isClosed then [] else new) ++ r ∧
    ∀ g ∈ target, g.sequence <:+ l

/-- Every open select list takes the requested columns that it lacks as one block, behind those of
its children that stay, and nothing else in the sequence of the parts comes or goes. -/
structure Supplied (fields : List ColumnRef) (d d' : Draft) : Prop where
  lists : Draft.SuppliesAll fields d.nextKey d'.nextKey d.parts d'.parts
  gone : ∀ p ∈ d.sequence, p.key ∉ d'.keys → Draft.Unasked fields d.parts p
  fresh : ∀ p ∈ d'.sequence, p.key ∉ d.keys → ∃ key, ∃ f ∈ fields, p = .field key f

def Changes (d d' : Draft) : Edit → Prop
  | remove key =>
    (key ∉ d.keys → d'.sequence = d.sequence) ∧
      ∀ p ∈ d.find? key, ∃ l r, d.sequence = l ++ p.sequence ++ r ∧ d'.sequence = l ++ r
  | supplyFields fields => Supplied fields d d'
  | edit => Inserts (edit.target? d) (sequenceAll (edit.inserted d)) d.sequence d'.sequence

/-! ### Insertions -/

theorem Inserts.top {p : Part} {old result l r : List Part} (hold : old = l ++ r)
    (hresult : result = l ++ p :: r) :
    Inserts none (sequenceAll [p]) (sequenceAll old) (sequenceAll result) := by
  subst hold hresult
  refine ⟨sequenceAll l, sequenceAll r, Part.sequenceAll_append l r, ?_, fun g hg => absurd hg (Option.not_mem_none g)⟩
  rw [show l ++ p :: r = l ++ [p] ++ r by simp, Part.sequenceAll_append, Part.sequenceAll_append]
  rfl

variable {t : Tree}

theorem inserts_add (t : Tree) (p : Part) :
    Inserts none (sequenceAll [p]) t.sequence (t.add p).sequence :=
  Inserts.top (List.append_nil _).symm rfl

theorem inserts_addAheadOf (t : Tree) (p : Part) (anchor : Part → Bool) :
    Inserts none (sequenceAll [p]) t.sequence (t.addAheadOf p anchor).sequence := by
  obtain ⟨l, r, hparts, hins⟩ := exists_insertAhead anchor t.parts
  exact Inserts.top hparts (hins p)

theorem inserts_addBefore (t : Tree) (p : Part) (tag : Tag) :
    Inserts none (sequenceAll [p]) t.sequence (t.addBefore p tag).sequence := by
  rw [Tree.addBefore]
  split_ifs
  · exact inserts_addAheadOf t p _
  · exact Inserts.top (l := []) rfl rfl

theorem inserts_addAfter (t : Tree) (p : Part) (tag : Tag) :
    Inserts none (sequenceAll [p]) t.sequence (t.addAfter p tag).sequence := by
  obtain ⟨l, r, hparts, hins⟩ := exists_insertBehind (fun q : Part => q.tag == tag) t.parts
  exact Inserts.top hparts (hins p)

theorem inserts_update (hkeys : t.keys.Nodup) {g : Part} (hg : g ∈ t.flatten)
    (hgroup : g.isGroup = true) (new : List Part) :
    Inserts (some g) (sequenceAll new) t.sequence
      (t.update g.key fun g => new.foldl (fun g child => Part.push child g) g).sequence := by
  have hk : g.key ∈ keysAll t.parts := List.mem_map_of_mem hg
  obtain ⟨g', l, r, hole⟩ := Part.exists_hole t.parts hkeys hk
  have hself : g' = g := List.inj_on_of_nodup_map hkeys hole.mem hg hole.key_eq
  subst hself
  refine ⟨l ++ g'.sequence, r, hole.sequence_eq, ?_, fun g hg => ?_⟩
  · rw [Tree.sequence, Tree.update, hole.update_eq, Part.sequence_push hgroup]
    simp only [Option.any_some, List.append_assoc]
  · rw [← Option.some.inj hg]
    exact List.suffix_append l _

theorem inserts_update_find? (hkeys : t.keys.Nodup) {k : Key} {g : Part} (hfind : t.find? k = some g)
    (hgroup : g.isGroup = true) (new : List Part) :
    Inserts ((t.find? k).filter Part.isGroup) (sequenceAll new) t.sequence
      (t.update k fun g => new.foldl (fun g child => Part.push child g) g).sequence := by
  obtain rfl : g.key = k := by simpa using List.find?_some hfind
  rw [hfind, Option.filter_some, if_pos hgroup]
  exact inserts_update hkeys (List.mem_of_find?_eq_some hfind) hgroup new

theorem inserts_addToLastWhere (hkeys : t.keys.Nodup) (p : Part) (anchor : Part → Bool) :
    Inserts (t.lastGroup? anchor) (sequenceAll [p]) t.sequence
      (t.addToLastWhere p anchor).sequence := by
  rw [Tree.addToLastWhere]
  cases hlast : t.lastGroup? anchor with
  | none => exact inserts_add t p
  | some g =>
    have hg := List.mem_filter.1 (List.mem_of_getLast? hlast)
    exact inserts_update hkeys hg.1 (Bool.and_eq_true_iff.1 hg.2).1 [p]

theorem Inserts.unchanged {old result : List Part} (h : result = old) : Inserts none [] old result :=
  ⟨old, [], (List.append_nil _).symm, by simp [h], fun g hg => absurd hg (Option.not_mem_none g)⟩

theorem changes_remove {d : Draft} (hkeys : d.keys.Nodup) (k : Key) :
    (remove k).Changes d ((remove k).apply d) := by
  change (k ∉ d.keys → ((remove k).apply d).sequence = d.sequence) ∧
    ∀ p ∈ d.find? k, ∃ l r, d.sequence = l ++ p.sequence ++ r ∧
      ((remove k).apply d).sequence = l ++ r
  cases htake : Part.take? k d.parts with
  | none =>
    have hk : k ∉ d.keys := Part.take?_eq_none htake
    have happly : (remove k).apply d = d := by simp [apply, Tree.remove?, htake, Draft.spend]
    refine ⟨fun _ => by rw [happly], fun p hp => ?_⟩
    have hkey : p.key = k := by simpa using List.find?_some hp
    exact absurd (hkey ▸ List.mem_map_of_mem (List.mem_of_find?_eq_some hp)) hk
  | some taken =>
    obtain ⟨q, rest⟩ := taken
    obtain ⟨rfl, cut⟩ := Part.take?_eq_some htake
    have hq : d.find? q.key = some q := Tree.find?_eq_some hkeys cut.mem
    have happly : ((remove q.key).apply d).sequence = sequenceAll rest := by
      simp [apply, Tree.remove?, htake, Draft.spend, Tree.sequence]
    refine ⟨fun hk => absurd (List.mem_map_of_mem cut.mem) hk, fun p hp => ?_⟩
    rw [← Option.some.inj (hq.symm.trans hp), happly]
    exact cut.split

end Edit

end SqlComposer
