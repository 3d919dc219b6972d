import SqlComposer.Proofs.Outline.Picked
import SqlComposer.Proofs.Select.Arranged
import SqlComposer.Proofs.Select.Clauses

/-!
# Queries behind calls in any order

The clauses of a query are those that its calls ask for, each kind in its order.
-/
namespace SqlComposer

namespace Outline

open Select

variable {s s' : Outline} {tags : Tag → Bool} {xs : List Predicate} {x : Predicate}

/-- The blocks that have such a tag are clauses that say what the predicates say. -/
def Holds (s : Outline) (tags : Tag → Bool) (xs : List Predicate) : Prop :=
  ∃ cs : List Clause, s.picked tags = cs.map .clause ∧
    cs.map Clause.gist = xs.map Predicate.gist

theorem Holds.of_picked (h : s.Holds tags xs) (hpicked : s'.picked tags = s.picked tags) :
    s'.Holds tags xs := by
  rwa [Holds, hpicked]

theorem Holds.append (h : s.Holds tags xs) {c : Clause} (hc : c.gist = x.gist)
    (hpicked : s'.picked tags = s.picked tags ++ [Block.clause c]) : s'.Holds tags (xs ++ [x]) := by
  obtain ⟨cs, hcs, hgists⟩ := h
  exact ⟨cs ++ [c], by rw [hpicked, hcs, List.map_append]; rfl,
    by rw [List.map_append, List.map_append, hgists, List.map_singleton, hc, List.map_singleton]⟩

theorem Holds.exists_last (h : s.Holds tags (xs ++ [x])) :
    ∃ front c, s.picked tags = front ++ [Block.clause c] := by
  obtain ⟨cs, hcs, hgists⟩ := h
  rw [List.map_append] at hgists
  obtain ⟨front, last, rfl, -, hlast⟩ := List.map_eq_append_iff.1 hgists
  obtain ⟨c, rfl, -⟩ := List.map_eq_singleton_iff.1 hlast
  exact ⟨front.map .clause, c, by rw [hcs, List.map_append]; rfl⟩

theorem Holds.nest (h : s.Holds tags (xs ++ [x])) {front : List Block} {b : Block}
    (hs : s.picked tags = front ++ [b]) {key : Key} {joint : Joint} {phrase : Phrase}
    (hpicked : s'.picked tags = front ++ [b.nest ⟨key, joint, phrase.atoms⟩]) :
    s'.Holds tags (xs ++ [x.extend joint phrase]) := by
  obtain ⟨cs, hcs, hgists⟩ := h
  rw [List.map_append] at hgists
  obtain ⟨before, last, rfl, hbefore, hlast⟩ := List.map_eq_append_iff.1 hgists
  obtain ⟨c, rfl, hc⟩ := List.map_eq_singleton_iff.1 hlast
  rw [hs, List.map_append, List.map_singleton] at hcs
  obtain ⟨rfl, hb⟩ := List.append_inj' hcs rfl
  obtain rfl := List.singleton_inj.1 hb
  refine ⟨before ++ [c.nest ⟨key, joint, phrase.atoms⟩], ?_, ?_⟩
  · rw [hpicked, List.map_append]
    rfl
  · rw [List.map_append, List.map_append, hbefore, List.map_singleton, List.map_singleton,
      gist_nest hc]

theorem Holds.exists_eq (h : s.Holds tags [x]) :
    ∃ c, s.picked tags = [.clause c] ∧ c.gist = x.gist := by
  obtain ⟨cs, hcs, hgists⟩ := h
  obtain ⟨c, rfl, hc⟩ := List.map_eq_singleton_iff.1 hgists
  exact ⟨c, hcs, hc⟩

theorem Holds.eq_nil_iff (h : s.Holds tags xs) : s.picked tags = [] ↔ xs = [] := by
  obtain ⟨cs, hcs, hgists⟩ := h
  have hlength := congrArg List.length hgists
  rw [List.length_map, List.length_map] at hlength
  rw [hcs, List.map_eq_nil_iff, ← List.length_eq_zero_iff, hlength, List.length_eq_zero_iff]

theorem Holds.any_iff (h : s.Holds tags xs) :
    (s.blocks.any fun b => tags b.tag) = true ↔ xs ≠ [] := by
  rw [any_tag_iff, Ne, h.eq_nil_iff]

theorem Holds.stands (h : s.Holds tags xs) :
    List.Forall₂ Predicate.Stands xs (s.draft.parts.filter fun p => tags p.tag) := by
  obtain ⟨cs, hcs, hgists⟩ := h
  rw [filter_parts, hcs, List.map_map]
  exact forall₂_stands hgists

end Outline

namespace Select

variable {x x' : Clauses} {q q' : Select} {s s' : Outline} {k : ClauseKind}

def Clauses.In (x : Clauses) (s : Outline) : Prop :=
  ∀ k : ClauseKind, s.Holds k.has (x.of k)

theorem Clauses.In.append (h : x.In s) {c : Clause} {y : Predicate} (hc : c.gist = y.gist)
    (hpicked : s'.picked k.has = s.picked k.has ++ [Block.clause c])
    (hothers : ∀ k', k' ≠ k → s'.picked k'.has = s.picked k'.has)
    (hof : x'.of k = x.of k ++ [y]) (hsame : ∀ k', k' ≠ k → x'.of k' = x.of k') : x'.In s' := by
  intro k'
  by_cases hk : k' = k
  · subst hk
    rw [hof]
    exact (h k').append hc hpicked
  · rw [hsame k' hk]
    exact (h k').of_picked (hothers k' hk)

theorem Clauses.In.nest (h : x.In s) {front : List Predicate} {y : Predicate}
    (hx : x.of k = front ++ [y]) {anchor : Block → Bool}
    (hanchor : ∀ b ∈ s.blocks, anchor b = true → k.has b.tag = true)
    (hlast : ∀ l b, s.picked k.has = l ++ [b] → anchor b = true) (joint : Joint) (phrase : Phrase)
    (hof : x'.of k = front ++ [y.extend joint phrase])
    (hsame : ∀ k', k' ≠ k → x'.of k' = x.of k') :
    x'.In (s.nest anchor joint phrase.atoms) := by
  intro k'
  have hheld := h k
  rw [hx] at hheld
  obtain ⟨l, c, hl⟩ := hheld.exists_last
  by_cases hk' : k' = k
  · subst hk'
    rw [hof]
    exact hheld.nest hl (Outline.picked_nest_of_pos hl (hlast l _ hl) hanchor joint _)
  -- what is gone on with is of the kind `k`
  · rw [hsame k' hk']
    have hany := List.any_eq_true.2 ⟨_, (Outline.last_mem_picked hl).1, hlast l _ hl⟩
    exact (h k').of_picked (Outline.picked_nest_of_neg hany
      (fun b hb hanchored => ClauseKind.not_has (hanchor b hb hanchored) hk') joint _)

end Select

namespace Outline

variable {s : Outline}

def SourcesFirst (s : Outline) : Prop :=
  (s.blocks.map Block.tag).Pairwise fun t u => t.followsSources = true → u.isJoin = false

theorem SourcesFirst.of_tags {s' : Outline} (h : s.SourcesFirst)
    (htags : s'.blocks.map Block.tag = s.blocks.map Block.tag) : s'.SourcesFirst := by
  rwa [SourcesFirst, htags]

theorem SourcesFirst.insert (h : s.SourcesFirst) {b : Block} {before : Tag → Bool}
    (hbefore : ∀ t, before t = true → t.followsSources = true)
    (hb : ∀ t, t.followsSources = true → before t = false → b.tag.isJoin = false) (n : Nat) :
    (s.insert b before n).SourcesFirst := by
  rw [SourcesFirst, Outline.insert, ← map_insertAhead]
  refine pairwise_insertAhead h (fun t _ ht hfollows => hb t hfollows ht) fun t _ ht => ?_
  have hfollows := hbefore t ht
  refine ⟨fun _ => ?_, fun u _ hu _ => hu hfollows⟩
  cases hjoin : t.isJoin with
  | false => rfl
  | true => rw [(Orderly.followsSources_apart t hfollows).2.2] at hjoin; cases hjoin

theorem SourcesFirst.add (h : s.SourcesFirst) {b : Block} (hb : b.tag.isJoin = false) (n : Nat) :
    (s.add b n).SourcesFirst := by
  rw [SourcesFirst, Outline.add, List.map_append]
  refine List.pairwise_append.2 ⟨h, List.pairwise_singleton _ _, fun t _ u hu _ => ?_⟩
  rwa [List.mem_singleton.1 hu]

theorem SourcesFirst.nest (h : s.SourcesFirst) (anchor : Block → Bool) (joint : Joint)
    (atoms : List Atom) : (s.nest anchor joint atoms).SourcesFirst := by
  rw [Outline.nest]
  split_ifs
  · exact h.of_tags (map_modifyLast_of_eq (fun _ => Block.nest_tag) _)
  · exact h.add (by cases joint <;> rfl) _

theorem SourcesFirst.enter (h : s.SourcesFirst) (tag : Tag) (e : Key → Entry) :
    (s.enter tag e).SourcesFirst :=
  h.of_tags (map_modifyLast_of_eq (fun _ => Block.enter_tag) _)

theorem SourcesFirst.openGrouping (h : s.SourcesFirst) : s.openGrouping.SourcesFirst := by
  rw [Outline.openGrouping]
  split_ifs
  · exact h
  · refine h.insert (fun t ht => ?_) (fun _ _ _ => rfl) _
    simp [Tag.followsSources, Tag.followsWhere, ht]

theorem SourcesFirst.supply (h : s.SourcesFirst) (hs : s.Headed) (fields : List ColumnRef) :
    (s.supply fields).SourcesFirst :=
  h.of_tags (supply_tags hs fields)

theorem SourcesFirst.closeSelect (h : s.SourcesFirst) : s.closeSelect.SourcesFirst := by
  refine h.of_tags ?_
  rw [Outline.closeSelect, List.map_map]
  refine List.map_congr_left fun b _ => ?_
  rw [Function.comp_apply]
  split_ifs
  · exact Block.close_tag b
  · rfl

end Outline

namespace Select

variable {x : Clauses} {q q' : Select} {s s' : Outline} {calls : List Call} {call : Call}

/-- What is known of a query behind calls in any order. -/
structure Assembled (x : Clauses) (q : Select) (s : Outline) : Prop where
  laid : Laid q s
  scope : q.scope = x.plan.scope
  clauses : x.In s
  target : q.predicateClause = (s.picked x.plan.latest.has).getLast?.map Block.key
  sourcesFirst : s.SourcesFirst

namespace Assembled

theorem atoms_eq (h : Assembled x q s) (e : Expr) :
    (q.scope.atoms e).value = Phrase.atoms ⟨x.plan.scope, e⟩ := by
  rw [h.scope]
  rfl

theorem target_of_picked (h : Assembled x q s)
    (hpicked : s'.picked x.plan.latest.has = s.picked x.plan.latest.has) :
    q.predicateClause = (s'.picked x.plan.latest.has).getLast?.map Block.key := by
  rw [hpicked]
  exact h.target

theorem join (h : Assembled x q s) (kind : JoinKind) (joined : Entity)
    (tableAlias : Option String) (on : Expr) :
    Assembled { x with plan := x.plan.join kind joined tableAlias on }
      (q.joinWith kind.tag joined tableAlias on).value
      (s.join kind.tag kind.frame?_tag joined.name tableAlias
        (Scope.atoms { entity := some joined.name, tableAlias } on).value) := by
  let c : Clause :=
    { key := s.nextKey, tag := kind.tag, entity := some joined.name, tableAlias,
      atoms := (Scope.atoms { entity := some joined.name, tableAlias } on).value,
      opensNoList := kind.frame?_tag }
  have hsources : (s.setAlias joined.name tableAlias).SourcesFirst :=
    h.sourcesFirst.of_tags (by rw [Outline.setAlias_blocks])
  let t := s.join kind.tag kind.frame?_tag joined.name tableAlias c.atoms
  have hpicked : t.picked ClauseKind.joins.has =
      s.picked ClauseKind.joins.has ++ [Block.clause c] := by
    have hinsert : t.picked ClauseKind.joins.has =
        (s.setAlias joined.name tableAlias).picked ClauseKind.joins.has ++ [Block.clause c] :=
      Outline.picked_insert_of_pos (ClauseKind.has_join kind)
        (fun t ht => (Orderly.followsSources_apart t ht).2.2) hsources _
    rwa [Outline.picked_setAlias] at hinsert
  have hothers (k : ClauseKind) (hk : k ≠ .joins) : t.picked k.has = s.picked k.has :=
    (Outline.picked_insert_of_neg (ClauseKind.not_has (ClauseKind.has_join kind) hk) _ _).trans
      (Outline.picked_setAlias ..)
  refine ⟨h.laid.joinWith kind joined tableAlias on, rfl,
    h.clauses.append (c := c) rfl hpicked hothers rfl fun k => x.of_join, ?_, ?_⟩
  · have hkey : (q.joinWith kind.tag joined tableAlias on).value.predicateClause =
        some s.nextKey := congrArg (fun d : Draft => some d.nextKey) h.laid.draft_eq
    rw [hkey, show (x.plan.join kind joined tableAlias on).latest = .joins from rfl, hpicked]
    simp [c, Block.key]
  · refine hsources.insert (fun _ ht => ht) (fun t hfollows hbefore => ?_) _
    rw [hfollows] at hbefore
    cases hbefore

theorem predicateClause_filter (h : Assembled x q s) (e : Expr) {c : Clause}
    (hc : (s.restrict Tag.followsWhere (q.scope.atoms e).value).picked
      ClauseKind.restriction.has = [.clause c]) :
    (q.filter e).value.predicateClause = some c.key := by
  -- the query takes the first restriction, and there is only one
  have hparts := congrArg List.head? (Outline.filter_parts
    (s.restrict Tag.followsWhere (q.scope.atoms e).value) ClauseKind.restriction.has)
  rw [hc, ← (h.laid.filter e).draft_eq] at hparts
  exact congrArg (Option.map Part.key) hparts

theorem startRestriction (h : Assembled x q s) (hnone : x.plan.restriction = none) (e : Expr) :
    let t := s.restrict Tag.followsWhere (q.scope.atoms e).value
    Clauses.In { x with plan := x.plan.filter e } t ∧ t.SourcesFirst := by
  have hof : x.of .restriction = [] := congrArg Option.toList hnone
  have hnil := (h.clauses .restriction).eq_nil_iff.2 hof
  have hany := (h.clauses .restriction).any_iff.not.2 (not_not.2 hof)
  let c : Clause :=
    { key := s.nextKey, tag := .whereClause, atoms := Phrase.atoms ⟨x.plan.scope, e⟩ }
  have hs : s.restrict Tag.followsWhere (Phrase.atoms ⟨x.plan.scope, e⟩) =
      s.insert (.clause c) Tag.followsWhere (c.atoms.length + 1) := if_neg hany
  rw [h.atoms_eq, hs]
  refine ⟨h.clauses.append (k := .restriction) (c := c)
    (y := { tag := .whereClause, condition := ⟨x.plan.scope, e⟩ }) rfl ?_
    (fun k hk => Outline.picked_insert_of_neg (ClauseKind.not_has (k := .restriction) rfl hk) _ _)
    ?_ fun k => x.of_filter e, h.sourcesFirst.insert (fun t ht => ?_) (fun _ _ _ => rfl) _⟩
  · rw [hnil]
    exact Outline.picked_insert_of_nil hnil rfl _ _
  · simp [Clauses.of, Plan.filter, hnone]
  · rw [Tag.followsSources, ht, Bool.or_true]

theorem extendRestriction (h : Assembled x q s) {r : Predicate}
    (hr : x.plan.restriction = some r) (e : Expr) :
    let t := s.restrict Tag.followsWhere (q.scope.atoms e).value
    Clauses.In { x with plan := x.plan.filter e } t ∧ t.SourcesFirst := by
  have hof : x.of .restriction = [] ++ [r] := congrArg Option.toList hr
  have hany : (s.blocks.any fun b => b.tag == .whereClause) = true :=
    (h.clauses .restriction).any_iff.2 (hof ▸ List.cons_ne_nil r [])
  have hs : s.restrict Tag.followsWhere (Phrase.atoms ⟨x.plan.scope, e⟩) =
      s.nest (fun b => b.tag == .whereClause) .and (Phrase.atoms ⟨x.plan.scope, e⟩) := if_pos hany
  rw [h.atoms_eq, hs]
  refine ⟨h.clauses.nest hof (fun _ _ hb => hb)
    (fun _ _ hl => (Outline.last_mem_picked hl).2) .and _ ?_
    fun k => x.of_filter e, h.sourcesFirst.nest _ _ _⟩
  simp [Clauses.of, Plan.filter, hr]

theorem filter (h : Assembled x q s) (e : Expr) :
    Assembled { x with plan := x.plan.filter e } (q.filter e).value
      (s.restrict Tag.followsWhere (q.scope.atoms e).value) := by
  have hfiltered : let t := s.restrict Tag.followsWhere (q.scope.atoms e).value
      Clauses.In { x with plan := x.plan.filter e } t ∧ t.SourcesFirst := by
    cases hr : x.plan.restriction with
    | none => exact h.startRestriction hr e
    | some r => exact h.extendRestriction hr e
  obtain ⟨hin, hfirst⟩ := hfiltered
  obtain ⟨c, hc, -⟩ := (hin .restriction).exists_eq
  refine ⟨h.laid.filter e, h.scope, hin, ?_, hfirst⟩
  rw [h.predicateClause_filter e hc]
  exact congrArg (fun bs : List Block => bs.getLast?.map Block.key) hc.symm

theorem leave (h : Assembled x q s) (joint : Joint) (e : Expr) {anchor : Block → Bool}
    (hnone : ∀ b ∈ s.blocks, anchor b = false) {draft : Draft}
    (hlaid : Laid { q with draft } (s.nest anchor joint (q.scope.atoms e).value)) :
    Assembled (x.leave joint e) { q with draft } (s.nest anchor joint (q.scope.atoms e).value) := by
  obtain ⟨hof, hsame⟩ := x.of_leave joint e
  have hothers (k : ClauseKind) (hk : k ≠ .strays) :
      (s.nest anchor joint (q.scope.atoms e).value).picked k.has = s.picked k.has := by
    rw [Outline.nest_of_none hnone]
    exact Outline.picked_add_of_neg (ClauseKind.not_has (ClauseKind.has_joint joint) hk) _
  refine ⟨hlaid, h.scope, h.clauses.append (k := .strays)
    (c := Addition.clause ⟨s.nextKey, joint, (q.scope.atoms e).value⟩) ?_ ?_ hothers hof hsame, ?_,
    h.sourcesFirst.nest _ _ _⟩
  · rw [h.atoms_eq]
    rfl
  · rw [Outline.nest_of_none hnone]
    exact Outline.picked_add_of_pos (ClauseKind.has_joint joint) _
  · exact h.target_of_picked (hothers _ x.plan.latest_ne.2)

theorem extend (h : Assembled x q s) (hcondition : x.hasCondition = true) (joint : Joint)
    (e : Expr) :
    Assembled { x with plan := x.plan.extend joint e } (q.chain joint.tag e).value
      (s.nest (fun b => some b.key == q.predicateClause) joint (q.scope.atoms e).value) := by
  obtain ⟨front, y, hx⟩ := Clauses.exists_last_of_hasCondition hcondition
  obtain ⟨hof, hsame⟩ := x.of_extend hx joint e
  have hheld := h.clauses x.plan.latest
  rw [hx] at hheld
  obtain ⟨l, c, hl⟩ := hheld.exists_last
  obtain ⟨hmem, htag⟩ := Outline.last_mem_picked hl
  have hkey : q.predicateClause = some (Block.clause c).key := by
    rw [h.target, hl, List.getLast?_append_cons]
    rfl
  have hself : (some (Block.clause c).key == q.predicateClause) = true := by
    rw [hkey]
    exact beq_self_eq_true _
  have hanchor : ∀ b ∈ s.blocks, (some b.key == q.predicateClause) = true →
      x.plan.latest.has b.tag = true := by
    intro b hb hanchored
    have hbkey : b.key = (Block.clause c).key :=
      Option.some.inj ((beq_iff_eq.1 hanchored).trans hkey)
    rwa [h.laid.keyed.block_eq hb hmem b.key_mem_keys (hbkey ▸ (Block.clause c).key_mem_keys)]
  have hpicked := Outline.picked_nest_of_pos hl hself hanchor joint (q.scope.atoms e).value
  refine ⟨h.laid.chain joint e, h.scope.trans ?_, ?_, ?_, h.sourcesFirst.nest _ _ _⟩
  · rw [Plan.extend]
    split_ifs <;> rfl
  · rw [h.atoms_eq]
    refine h.clauses.nest hx hanchor (fun l' b hl' => ?_) joint _ hof hsame
    obtain ⟨-, hb⟩ := List.append_inj' (hl'.symm.trans hl) rfl
    rwa [List.singleton_inj.1 hb]
  · rw [Clauses.latest_extend, hpicked, List.getLast?_append_cons]
    exact hkey

theorem chain (h : Assembled x q s) (joint : Joint) (e : Expr) :
    Assembled (x.chain joint e) (q.chain joint.tag e).value
      (s.nest (fun b => some b.key == q.predicateClause) joint (q.scope.atoms e).value) := by
  rw [Clauses.chain]
  split_ifs with hcondition
  · exact h.extend hcondition joint e
  · have hnil : x.of x.plan.latest = [] := by simpa [Clauses.hasCondition] using hcondition
    have htarget : q.predicateClause = none := by
      rw [h.target, (h.clauses x.plan.latest).eq_nil_iff.2 hnil]
      rfl
    refine h.leave joint e (fun b _ => ?_) (h.laid.chain joint e)
    rw [htarget]
    rfl

theorem extendOrdering (h : Assembled x q s) {o : Predicate} (ho : x.ordering = some o)
    (d : Direction) (e : Expr) {draft : Draft}
    (hlaid : Laid { q with draft }
      (s.nest (fun b => b.tag.startsOrder) d.joint (q.scope.atoms e).value)) :
    Assembled (x.orderBy d e) { q with draft }
      (s.nest (fun b => b.tag.startsOrder) d.joint (q.scope.atoms e).value) := by
  have hof : x.of .ordering = [] ++ [o] := congrArg Option.toList ho
  have hany : (s.blocks.any fun b => b.tag.startsOrder) = true :=
    (h.clauses .ordering).any_iff.2 (hof ▸ List.cons_ne_nil o [])
  refine ⟨hlaid, h.scope, ?_, ?_, h.sourcesFirst.nest _ _ _⟩
  · rw [h.atoms_eq]
    refine h.clauses.nest hof (fun _ _ hb => hb) (fun _ _ hl => (Outline.last_mem_picked hl).2)
      d.joint _ ?_ fun k => x.of_orderBy d e
    simp [Clauses.of, Clauses.orderBy, ho]
  · exact h.target_of_picked (Outline.picked_nest_of_neg hany
      (fun b _ hb => ClauseKind.not_has (k := .ordering) hb x.plan.latest_ne.1) _ _)

theorem startOrdering (h : Assembled x q s) (hnone : x.ordering = none) (d : Direction) (e : Expr)
    {draft : Draft}
    (hlaid : Laid { q with draft }
      (s.order d.tag d.frame?_tag d.joint (q.scope.atoms e).value)) :
    Assembled (x.orderBy d e) { q with draft }
      (s.order d.tag d.frame?_tag d.joint (q.scope.atoms e).value) := by
  have hof : x.of .ordering = [] := congrArg Option.toList hnone
  have hany := (h.clauses .ordering).any_iff.not.2 (not_not.2 hof)
  let c : Clause :=
    { key := s.nextKey, tag := d.tag, atoms := Phrase.atoms ⟨x.plan.scope, e⟩,
      opensNoList := d.frame?_tag }
  have hs : s.order d.tag d.frame?_tag d.joint (q.scope.atoms e).value =
      s.add (.clause c) (c.atoms.length + 1) := by
    rw [h.atoms_eq]
    exact if_neg hany
  have hothers (k : ClauseKind) (hk : k ≠ .ordering) :
      (s.add (.clause c) (c.atoms.length + 1)).picked k.has = s.picked k.has :=
    Outline.picked_add_of_neg (ClauseKind.not_has (ClauseKind.has_direction d) hk) _
  rw [hs] at hlaid ⊢
  refine ⟨hlaid, h.scope, h.clauses.append (c := c) (y := { tag := d.tag, condition := ⟨_, e⟩ }) rfl
    (Outline.picked_add_of_pos (ClauseKind.has_direction d) _) hothers ?_ fun k => x.of_orderBy d e,
    h.target_of_picked (hothers _ x.plan.latest_ne.1), h.sourcesFirst.add ?_ _⟩
  · simp [Clauses.of, Clauses.orderBy, hnone]
  · cases d <;> rfl

theorem orderBy (h : Assembled x q s) (d : Direction) (e : Expr) :
    Assembled (x.orderBy d e) (q.orderWith d.tag d.joint.tag e).value
      (s.order d.tag d.frame?_tag d.joint (q.scope.atoms e).value) := by
  have hlaid := h.laid.orderWith d e
  obtain ⟨draft, hq⟩ := orderWith_value q d.tag d.joint.tag e
  rw [hq] at hlaid ⊢
  cases ho : x.ordering with
  | none => exact h.startOrdering ho d e hlaid
  | some o =>
    have hof : x.of .ordering = [o] := congrArg Option.toList ho
    have hany : (s.blocks.any fun b => b.tag.startsOrder) = true :=
      (h.clauses .ordering).any_iff.2 (hof ▸ List.cons_ne_nil o [])
    rw [Outline.order, if_pos hany] at hlaid ⊢
    exact h.extendOrdering ho d e hlaid

theorem thenBy (h : Assembled x q s) (d : Direction) (e : Expr) :
    Assembled (x.thenBy d e) (q.nestOrder d.joint.tag e).value
      (s.nest (fun b => b.tag.startsOrder) d.joint (q.scope.atoms e).value) := by
  have hlaid := h.laid.nestOrder d e
  rw [Clauses.thenBy]
  split_ifs with ho
  · obtain ⟨o, ho⟩ := Option.isSome_iff_exists.1 ho
    exact h.extendOrdering ho d e hlaid
  · have hnil : x.of .ordering = [] := by simpa [Clauses.of] using ho
    have hnone := (h.clauses .ordering).any_iff.not.2 (not_not.2 hnil)
    exact h.leave d.joint e (fun b hb => Bool.eq_false_iff.2 fun hstarts =>
      hnone (List.any_eq_true.2 ⟨b, hb, hstarts⟩)) hlaid

theorem quiet (h : Assembled x q s) {p : Plan} (hlaid : Laid q' s') (hscope : q'.scope = p.scope)
    (hplan : p = { x.plan with scope := p.scope })
    (hpicked : ∀ k : ClauseKind, s'.picked k.has = s.picked k.has)
    (htarget : q'.predicateClause = q.predicateClause) (hfirst : s'.SourcesFirst) :
    Assembled { x with plan := p } q' s' := by
  refine ⟨hlaid, hscope, fun k => ?_, ?_, hfirst⟩
  · have hof : Clauses.of { x with plan := p } k = x.of k := by
      rw [hplan]
      cases k <;> rfl
    rw [hof]
    exact (h.clauses k).of_picked (hpicked k)
  · rw [htarget, hplan]
    exact h.target_of_picked (hpicked _)

theorem mapped (h : Assembled x q s) (f : ColumnRef) :
    Assembled x { q with draft := q.draft.addField f } (s.enter .select fun key => .column key f) :=
  h.quiet (h.laid.addField f) h.scope rfl (fun k => Outline.picked_enter k.not_has_apart.1 _) rfl
    (h.sourcesFirst.enter _ _)

theorem step (h : Assembled x q s) (hcall : (call.apply q).outcome = .ok q') :
    Assembled (x.step call) q' (call.layOut q s) := by
  cases call with
  | join kind joined on =>
    rw [Call.apply_join] at hcall
    cases hcall
    exact h.join kind joined none on
  | joinAs joined tableAlias on =>
    obtain ⟨-, rfl⟩ := joinAs_eq_ok hcall
    exact h.join .inner joined (some tableAlias) on
  | filter e =>
    cases hcall
    exact h.filter e
  | andFilter e =>
    cases hcall
    exact h.chain .and e
  | orFilter e =>
    cases hcall
    exact h.chain .or e
  | orderBy d e =>
    rw [Call.apply_orderBy] at hcall
    cases hcall
    exact h.orderBy d e
  | thenBy d e =>
    rw [Call.apply_thenBy] at hcall
    cases hcall
    exact h.thenBy d e
  | groupBy e =>
    have hlaid := h.laid.step hcall
    obtain ⟨f, hf, hcall⟩ := Rendering.outcome_bind_eq_ok hcall
    rw [Call.layOut, member_eq_ok hf] at hlaid ⊢
    cases hcall
    refine h.quiet hlaid h.scope rfl (fun k => ?_) rfl (h.sourcesFirst.openGrouping.enter _ _)
    rw [Outline.picked_enter k.not_has_apart.2, Outline.picked_openGrouping k.not_has_apart.2]
  | map e =>
    obtain ⟨f, hf, rfl⟩ := mapped_eq_ok (.inl rfl) hcall
    rw [Call.layOut_mapped hf]
    exact h.mapped f
  | mapAs e name =>
    obtain ⟨f, hf, rfl⟩ := mapped_eq_ok (.inr (.inl ⟨name, rfl⟩)) hcall
    rw [Call.layOut_mapped hf]
    exact h.mapped f
  | mapWith e name converter =>
    obtain ⟨f, hf, rfl⟩ := mapped_eq_ok (.inr (.inr ⟨name, converter, rfl⟩)) hcall
    rw [Call.layOut_mapped hf]
    exact h.mapped f
  | ignore member =>
    have hlaid := h.laid.step hcall
    cases hcall
    exact h.quiet hlaid h.scope rfl (fun _ => rfl) rfl h.sourcesFirst
  | forType result =>
    cases hcall
    refine h.quiet (h.laid.forType result) rfl rfl (fun k => ?_) rfl
      (h.sourcesFirst.supply h.laid.headed _).closeSelect
    exact (Outline.picked_closeSelect k.not_has_apart.1).trans
      (Outline.picked_supply h.laid.headed k.not_has_apart.1 _)

theorem run (h : Assembled x q s) (hrun : (q.run calls).outcome = .ok q') :
    ∃ s', Assembled (x.after calls) q' s' := by
  refine run_induction (I := fun calls q => ∃ s, Assembled (x.after calls) q s) [] ?_ ⟨s, h⟩ hrun
  rintro calls call q p ⟨s, h⟩ hcall
  rw [Clauses.after_append]
  exact ⟨_, h.step hcall⟩

theorem opened (c : Compiler) (e : Entity) (tableAlias : Option String) :
    Assembled (.opening e tableAlias) (Select.start c e tableAlias)
      (Select.opening e tableAlias) where
  laid := .start c e tableAlias
  scope := rfl
  clauses k := ⟨[], by cases k <;> cases tableAlias <;> rfl, by cases k <;> rfl⟩
  target := by cases tableAlias <;> rfl
  sourcesFirst := by
    rw [Outline.SourcesFirst, Select.opening, Outline.setAlias_blocks]
    exact List.pairwise_pair.2 nofun

end Assembled

end Select

end SqlComposer
