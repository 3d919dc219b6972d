import Mathlib.Data.List.Induction
import SqlComposer.Proofs.Select.Orderly
import SqlComposer.Proofs.Select.Plan

/-!
# Clauses land in their places

Whatever the order of the calls, the clauses of a query stand in the order of SQL and every
predicate stands in the clause that its call is about.
-/
namespace SqlComposer

/-- What a clause says, whatever its keys. -/
structure Gist where
  tag : Tag
  entity : Option String
  tableAlias : Option String
  atoms : List Atom
  additions : List (Joint × List Atom)

def Clause.gist (c : Clause) : Gist where
  tag := c.tag
  entity := c.entity
  tableAlias := c.tableAlias
  atoms := c.atoms
  additions := c.additions.map fun a => (a.joint, a.atoms)

namespace Select

def Predicate.gist (p : Predicate) : Gist where
  tag := p.tag
  entity := p.entity
  tableAlias := p.tableAlias
  atoms := p.condition.atoms
  additions := p.additions.map fun a => (a.1, a.2.atoms)

theorem gist_nest {c : Clause} {p : Predicate} (h : c.gist = p.gist) (key : Key) (joint : Joint)
    (phrase : Phrase) :
    (c.nest ⟨key, joint, phrase.atoms⟩).gist = (p.extend joint phrase).gist := by
  simp only [Clause.gist, Predicate.gist, Gist.mk.injEq] at h
  simp [Clause.gist, Predicate.gist, Clause.nest, Predicate.extend, h]

theorem stands_of_gist {c : Clause} {x : Predicate} (h : c.gist = x.gist) :
    x.Stands (Block.clause c).part := by
  simp only [Clause.gist, Predicate.gist, Gist.mk.injEq] at h
  obtain ⟨htag, hentity, halias, hatoms, hadditions⟩ := h
  refine ⟨c.key, _, c.additions.map Addition.part, x.condition.body (c.key + 1), ?_, ?_⟩
  · generalize c.additions = as at hadditions
    generalize x.additions = xs at hadditions
    induction xs generalizing as with
    | nil =>
      rw [List.map_eq_nil_iff.1 hadditions]
      exact .nil
    | cons addition xs ih =>
      obtain ⟨a, as, rfl, ha, has⟩ := List.map_eq_cons_iff.1 hadditions
      obtain ⟨hjoint, hatoms⟩ := Prod.mk.inj ha
      exact .cons ⟨a.key, _, addition.2.body (a.key + 1), by rw [Addition.part, hjoint, hatoms]⟩
        (ih as has)
  · rw [Block.part, htag, hentity, halias, hatoms]

theorem forall₂_stands {cs : List Clause} {xs : List Predicate}
    (h : cs.map Clause.gist = xs.map Predicate.gist) :
    List.Forall₂ Predicate.Stands xs (cs.map fun c => (Block.clause c).part) := by
  induction xs generalizing cs with
  | nil =>
    rw [List.map_eq_nil_iff.1 h]
    exact .nil
  | cons x xs ih =>
    obtain ⟨c, cs, rfl, hc, hcs⟩ := List.map_eq_cons_iff.1 h
    exact .cons (stands_of_gist hc) (ih hcs)

structure Follows (o : Orderly) (calls : List Call) : Prop where
  joins : o.joins.map Clause.tag = calls.filterMap Call.joinTag?
  filtered : o.restriction.isSome = calls.any Call.isFilter
  grouped : o.grouping.isSome = calls.any Call.isGrouping
  ordered : o.ordering.map Clause.tag = calls.findSome? Call.orderTag?

structure Call.Quiet (call : Call) : Prop where
  join : call.joinTag? = none
  filter : call.isFilter = false
  group : call.isGrouping = false
  order : call.orderTag? = none

/-- What is known of a query over a table behind calls that fit. -/
structure Arranged (start : Plan) (calls : List Call) (q : Select) (s : Outline) (o : Orderly) :
    Prop where
  laid : Laid q s
  blocks : s.blocks = o.blocks
  tagged : o.WellTagged
  follows : Follows o calls
  scope : q.scope = (start.after calls).scope
  joins : o.joins.map Clause.gist = (start.after calls).joins.map Predicate.gist
  restriction : o.restriction.map Clause.gist =
    (start.after calls).restriction.map Predicate.gist
  target : q.predicateClause =
    if (start.after calls).onRestriction then o.restriction.map Clause.key
    else o.joins.getLast?.map Clause.key
  extendable : calls.any Call.opensCondition = true → q.predicateClause.isSome = true

theorem Plan.after_append (p : Plan) (calls : List Call) (call : Call) :
    p.after (calls ++ [call]) = (p.after calls).step call := by
  simp [Plan.after]

variable {start : Plan} {calls : List Call} {call : Call} {q q' : Select} {s : Outline}
  {o o' : Orderly}

theorem Follows.quiet (h : Follows o calls) (hcall : call.Quiet)
    (hjoins : o'.joins.map Clause.tag = o.joins.map Clause.tag)
    (hrestriction : o'.restriction.isSome = o.restriction.isSome)
    (hgrouping : o'.grouping.isSome = o.grouping.isSome)
    (hordering : o'.ordering.map Clause.tag = o.ordering.map Clause.tag) :
    Follows o' (calls ++ [call]) where
  joins := by simp [hjoins, h.joins, hcall.join]
  filtered := by simp [hrestriction, h.filtered, hcall.filter]
  grouped := by simp [hgrouping, h.grouped, hcall.group]
  ordered := by simp [hordering, h.ordered, hcall.order, List.findSome?_append]

theorem orderWith_value (q : Select) (first next : Tag) (field : Expr) :
    ∃ draft, (q.orderWith first next field).value = { q with draft } := by
  rw [orderWith]
  by_cases hany : (q.draft.contains .orderBy || q.draft.contains .orderByDesc) = true
  · rw [if_pos hany]
    exact ⟨_, rfl⟩
  · rw [if_neg hany]
    exact ⟨_, rfl⟩

namespace Arranged

theorem join (h : Arranged start calls q s o) (kind : JoinKind) (joined : Entity)
    (tableAlias : Option String) (on : Expr)
    (hstep : ∀ p : Plan, p.step call = p.join kind joined tableAlias on)
    (htag : call.joinTag? = some kind.tag) (hfilter : call.isFilter = false)
    (hgroup : call.isGrouping = false) (horder : call.orderTag? = none) :
    ∃ s' o', Arranged start (calls ++ [call]) (q.joinWith kind.tag joined tableAlias on).value
      s' o' := by
  have hlaid := h.laid.joinWith kind joined tableAlias on
  have hplan : start.after (calls ++ [call]) =
      (start.after calls).join kind joined tableAlias on := by
    rw [Plan.after_append, hstep]
  refine ⟨_, _, hlaid, Orderly.join_blocks h.tagged h.blocks kind.frame?_tag joined.name
    tableAlias _, ⟨h.tagged.columns, h.tagged.table, ?_, h.tagged.restriction, h.tagged.grouping,
      h.tagged.ordering⟩, ⟨?_, ?_, ?_, ?_⟩, ?_, ?_, ?_, ?_, fun _ => rfl⟩
  · intro c hc
    obtain hc | hc := List.mem_append.1 hc
    · exact h.tagged.joins c hc
    · rw [List.mem_singleton.1 hc]
      exact kind.isJoin_tag
  · simp [h.follows.joins, htag]
  · simp [h.follows.filtered, hfilter]
  · simp [h.follows.grouped, hgroup]
  · simp [h.follows.ordered, horder, List.findSome?_append]
  · rw [hplan]
    rfl
  · rw [hplan, Plan.join, List.map_append, List.map_append, h.joins]
    rfl
  · rw [hplan]
    exact h.restriction
  · rw [hplan]
    simp [Select.joinWith, Plan.join, h.laid.draft_eq, Outline.draft]

theorem exists_restriction (h : Arranged start calls q s o) (e : Expr) :
    ∃ c : Clause, c.tag = .whereClause ∧
      (s.restrict Tag.followsWhere (q.scope.atoms e).value).blocks =
        Orderly.blocks { o with restriction := some c } ∧
      some c.gist = ((start.after calls).filter e).restriction.map Predicate.gist := by
  have hatoms : (q.scope.atoms e).value = Phrase.atoms ⟨(start.after calls).scope, e⟩ := by
    rw [h.scope]
    rfl
  have hgist := h.restriction
  cases hrestriction : o.restriction with
  | none =>
    refine ⟨_, rfl, Orderly.restrict_blocks_none h.tagged h.blocks hrestriction _, ?_⟩
    rw [hrestriction] at hgist
    rw [Plan.filter, Option.map_eq_none_iff.1 hgist.symm, hatoms]
    rfl
  | some c =>
    refine ⟨c.nest ⟨s.nextKey, .and, (q.scope.atoms e).value⟩,
      h.tagged.restriction c hrestriction, Orderly.restrict_blocks_some h.tagged h.blocks hrestriction _ _, ?_⟩
    rw [hrestriction, Option.map_some] at hgist
    obtain ⟨p, hp, hgist⟩ := Option.map_eq_some_iff.1 hgist.symm
    rw [Plan.filter, hp, hatoms]
    exact congrArg some (gist_nest hgist.symm _ _ _)

theorem filter (h : Arranged start calls q s o) (e : Expr) :
    ∃ s' o', Arranged start (calls ++ [Call.filter e]) (q.filter e).value s' o' := by
  have hlaid := h.laid.filter e
  have hplan : start.after (calls ++ [Call.filter e]) = (start.after calls).filter e :=
    Plan.after_append ..
  obtain ⟨c, htag, hblocks, hgist⟩ := h.exists_restriction e
  have htagged : Orderly.WellTagged { o with restriction := some c } :=
    ⟨h.tagged.columns, h.tagged.table, h.tagged.joins, fun d hd => Option.some.inj hd ▸ htag,
      h.tagged.grouping, h.tagged.ordering⟩
  have htarget : (q.filter e).value.predicateClause = some c.key := by
    have hhead := Orderly.head?_partsOf htagged hblocks rfl
    rwa [← hlaid.draft_eq] at hhead
  refine ⟨_, _, hlaid, hblocks, htagged, ⟨?_, ?_, ?_, ?_⟩, ?_, ?_, ?_, ?_, fun _ => ?_⟩
  · simp [h.follows.joins, Call.joinTag?]
  · simp [Call.isFilter]
  · simp [h.follows.grouped, Call.isGrouping]
  · simp [h.follows.ordered, Call.orderTag?, List.findSome?_append]
  · rw [hplan]
    exact h.scope
  · rw [hplan]
    exact h.joins
  · rw [hplan]
    exact hgist
  · rw [hplan, htarget]
    rfl
  · rw [htarget]
    rfl

theorem extend_restriction (h : Arranged start calls q s o)
    (hon : (start.after calls).onRestriction = true) (joint : Joint) (e : Expr)
    (hstep : ∀ p : Plan, p.step call = p.extend joint e) (hcall : call.Quiet) {k : Key}
    (hk : q.predicateClause = some k) :
    ∃ s' o', Arranged start (calls ++ [call]) (q.chain joint.tag e).value s' o' := by
  have htarget := h.target
  rw [hon, if_pos rfl, hk] at htarget
  obtain ⟨c, hc, rfl⟩ := Option.map_eq_some_iff.1 htarget.symm
  have hrestriction := h.restriction
  rw [hc, Option.map_some] at hrestriction
  obtain ⟨p, hp, hgist⟩ := Option.map_eq_some_iff.1 hrestriction.symm
  have hlaid := h.laid.chain joint e
  rw [hk] at hlaid
  have hplan : start.after (calls ++ [call]) =
      { start.after calls with
        restriction := some (p.extend joint ⟨(start.after calls).scope, e⟩) } := by
    rw [Plan.after_append, hstep, Plan.extend, if_pos hon, hp]
    rfl
  refine ⟨_, _, hlaid, Orderly.nest_blocks_restriction h.laid.keyed h.blocks hc joint _,
    ⟨h.tagged.columns, h.tagged.table, h.tagged.joins,
      fun d hd => Option.some.inj hd ▸ h.tagged.restriction c hc, h.tagged.grouping,
      h.tagged.ordering⟩, h.follows.quiet hcall rfl (by rw [hc]; rfl) rfl rfl,
    ?_, ?_, ?_, ?_, fun _ => ?_⟩
  · rw [hplan]
    exact h.scope
  · rw [hplan]
    exact h.joins
  · rw [hplan, h.scope]
    exact congrArg some (gist_nest hgist.symm s.nextKey joint ⟨(start.after calls).scope, e⟩)
  · rw [hplan, if_pos hon]
    exact hk
  · exact Option.isSome_iff_exists.2 ⟨_, hk⟩

theorem extend_join (h : Arranged start calls q s o)
    (hon : (start.after calls).onRestriction = false) (joint : Joint) (e : Expr)
    (hstep : ∀ p : Plan, p.step call = p.extend joint e) (hcall : call.Quiet) {k : Key}
    (hk : q.predicateClause = some k) :
    ∃ s' o', Arranged start (calls ++ [call]) (q.chain joint.tag e).value s' o' := by
  have htarget := h.target
  rw [hon, if_neg nofun, hk] at htarget
  obtain ⟨c, hc, rfl⟩ := Option.map_eq_some_iff.1 htarget.symm
  obtain ⟨front, hfront⟩ := List.getLast?_eq_some_iff.1 hc
  have hjoins := h.joins
  rw [hfront, List.map_append] at hjoins
  obtain ⟨pfront, plast, hp, hpfront, hplast⟩ := List.map_eq_append_iff.1 hjoins.symm
  obtain ⟨p, rfl, hgist⟩ := List.map_eq_singleton_iff.1 hplast
  have hlaid := h.laid.chain joint e
  rw [hk] at hlaid
  have hplan : start.after (calls ++ [call]) =
      { start.after calls with
        joins := pfront ++ [p.extend joint ⟨(start.after calls).scope, e⟩] } := by
    rw [Plan.after_append, hstep, Plan.extend, if_neg (by simp [hon]), hp,
      modifyLast_append_cons rfl (List.forall_mem_nil _)]
  refine ⟨_, _, hlaid, Orderly.nest_blocks_join h.laid.keyed h.blocks hfront joint _,
    ⟨h.tagged.columns, h.tagged.table, ?_, h.tagged.restriction, h.tagged.grouping,
      h.tagged.ordering⟩, h.follows.quiet hcall (by simp [hfront, Clause.nest]) rfl rfl rfl,
    ?_, ?_, ?_, ?_, fun _ => ?_⟩
  · intro d hd
    have hd' : d.tag ∈ (front ++ [c]).map Clause.tag := by
      simpa [Clause.nest] using List.mem_map_of_mem (f := Clause.tag) hd
    rw [← hfront] at hd'
    obtain ⟨c', hc', htag⟩ := List.mem_map.1 hd'
    exact htag ▸ h.tagged.joins c' hc'
  · rw [hplan]
    exact h.scope
  · rw [hplan, h.scope, List.map_append, List.map_append, hpfront, List.map_singleton,
      List.map_singleton]
    rw [← gist_nest hgist.symm s.nextKey joint ⟨(start.after calls).scope, e⟩]
    rfl
  · rw [hplan]
    exact h.restriction
  · rw [hplan, if_neg (by simp [hon])]
    simpa [Select.chain, Clause.nest] using hk
  · exact Option.isSome_iff_exists.2 ⟨_, hk⟩

theorem extend (h : Arranged start calls q s o) (joint : Joint) (e : Expr)
    (hstep : ∀ p : Plan, p.step call = p.extend joint e) (hcall : call.Quiet)
    (hfits : calls.any Call.opensCondition = true) :
    ∃ s' o', Arranged start (calls ++ [call]) (q.chain joint.tag e).value s' o' := by
  obtain ⟨k, hk⟩ := Option.isSome_iff_exists.1 (h.extendable hfits)
  cases hon : (start.after calls).onRestriction with
  | true => exact h.extend_restriction hon joint e hstep hcall hk
  | false => exact h.extend_join hon joint e hstep hcall hk

theorem keep (h : Arranged start calls q s o) {s' : Outline} (hlaid : Laid q' s')
    (hblocks : s'.blocks = o'.blocks) (htagged : o'.WellTagged)
    (hfollows : Follows o' (calls ++ [call])) (hjoins : o'.joins = o.joins)
    (hrestriction : o'.restriction = o.restriction)
    (hplan : (start.after calls).step call = { start.after calls with scope := q'.scope })
    (htarget : q'.predicateClause = q.predicateClause)
    (hopens : call.opensCondition = false) : Arranged start (calls ++ [call]) q' s' o' where
  laid := hlaid
  blocks := hblocks
  tagged := htagged
  follows := hfollows
  scope := by rw [Plan.after_append, hplan]
  joins := by rw [Plan.after_append, hplan, hjoins, h.joins]
  restriction := by rw [Plan.after_append, hplan, hrestriction, h.restriction]
  target := by rw [Plan.after_append, hplan, hjoins, hrestriction, htarget, h.target]
  extendable := by
    intro hany
    rw [htarget]
    exact h.extendable (by simpa [hopens] using hany)

theorem plan_eq_self (h : Arranged start calls q s o) (hscope : q'.scope = q.scope) :
    start.after calls = { start.after calls with scope := q'.scope } := by
  rw [hscope, h.scope]

theorem orderBy (h : Arranged start calls q s o) (d : Direction) (field : Expr) :
    ∃ s' o', Arranged start (calls ++ [Call.orderBy d field])
      (q.orderWith d.tag d.joint.tag field).value s' o' := by
  have hlaid := h.laid.orderWith d field
  obtain ⟨draft, hq⟩ := orderWith_value q d.tag d.joint.tag field
  rw [hq] at hlaid ⊢
  have htag : d.tag.startsOrder = true := by cases d <;> rfl
  cases hordering : o.ordering with
  | none =>
    have hordered := h.follows.ordered
    rw [hordering, Option.map_none] at hordered
    refine ⟨_, _, h.keep hlaid (Orderly.order_blocks_none h.tagged h.blocks hordering _ _ _)
      ⟨h.tagged.columns, h.tagged.table, h.tagged.joins, h.tagged.restriction, h.tagged.grouping,
        fun c hc => Option.some.inj hc ▸ htag⟩ ⟨?_, ?_, ?_, ?_⟩ rfl rfl
      (h.plan_eq_self rfl) rfl rfl⟩
    · simp [h.follows.joins, Call.joinTag?]
    · simp [h.follows.filtered, Call.isFilter]
    · simp [h.follows.grouped, Call.isGrouping]
    · simp [List.findSome?_append, ← hordered, Call.orderTag?]
  | some c =>
    have hordered := h.follows.ordered
    rw [hordering, Option.map_some] at hordered
    refine ⟨_, _, h.keep hlaid (Orderly.order_blocks_some h.tagged h.blocks hordering _ _ _)
      ⟨h.tagged.columns, h.tagged.table, h.tagged.joins, h.tagged.restriction, h.tagged.grouping,
        fun c' hc' => Option.some.inj hc' ▸ h.tagged.ordering c hordering⟩ ⟨?_, ?_, ?_, ?_⟩ rfl rfl
      (h.plan_eq_self rfl) rfl rfl⟩
    · simp [h.follows.joins, Call.joinTag?]
    · simp [h.follows.filtered, Call.isFilter]
    · simp [h.follows.grouped, Call.isGrouping]
    · simp [List.findSome?_append, ← hordered, Clause.nest]

theorem thenBy (h : Arranged start calls q s o) (d : Direction) (field : Expr)
    (hfits : (calls.any fun call => call.orderTag?.isSome) = true) :
    ∃ s' o', Arranged start (calls ++ [Call.thenBy d field])
      (q.nestOrder d.joint.tag field).value s' o' := by
  have hsome : (calls.findSome? Call.orderTag?).isSome = true := by
    rw [List.findSome?_isSome_iff]
    obtain ⟨call, hcall, htag⟩ := List.any_eq_true.1 hfits
    exact ⟨call, hcall, htag⟩
  rw [← h.follows.ordered, Option.isSome_map] at hsome
  obtain ⟨c, hc⟩ := Option.isSome_iff_exists.1 hsome
  exact ⟨_, _, h.keep (h.laid.nestOrder d field)
    (Orderly.nest_blocks_order h.tagged h.blocks hc _ _)
    ⟨h.tagged.columns, h.tagged.table, h.tagged.joins, h.tagged.restriction, h.tagged.grouping,
      fun c' hc' => Option.some.inj hc' ▸ h.tagged.ordering c hc⟩
    (h.follows.quiet ⟨rfl, rfl, rfl, rfl⟩ rfl rfl rfl (by rw [hc]; rfl)) rfl rfl
    (h.plan_eq_self rfl) rfl rfl⟩

theorem groupBy (h : Arranged start calls q s o) (field : Expr) (f : ColumnRef) {draft : Draft}
    (hlaid : Laid { q with draft } (s.openGrouping.enter .groupBy fun key => .column key f)) :
    ∃ s' o', Arranged start (calls ++ [Call.groupBy field]) { q with draft } s' o' := by
  obtain ⟨l, htag, hblocks⟩ := Orderly.group_blocks h.tagged h.blocks fun key => .column key f
  refine ⟨_, _, h.keep hlaid hblocks ⟨h.tagged.columns, h.tagged.table, h.tagged.joins,
    h.tagged.restriction, fun l' hl' => Option.some.inj hl' ▸ htag, h.tagged.ordering⟩
    ⟨?_, ?_, ?_, ?_⟩ rfl rfl (h.plan_eq_self rfl) rfl rfl⟩
  · simp [h.follows.joins, Call.joinTag?]
  · simp [h.follows.filtered, Call.isFilter]
  · simp [Call.isGrouping]
  · simp [h.follows.ordered, Call.orderTag?, List.findSome?_append]

theorem mapped (h : Arranged start calls q s o) (f : ColumnRef) (hcall : call.Quiet)
    (hstep : ∀ p : Plan, p.step call = p) :
    ∃ s' o', Arranged start (calls ++ [call]) { q with draft := q.draft.addField f } s' o' :=
  ⟨_, _, h.keep (h.laid.addField f) (Orderly.enter_blocks h.tagged h.blocks _)
    ⟨h.tagged.columns, h.tagged.table, h.tagged.joins, h.tagged.restriction, h.tagged.grouping,
      h.tagged.ordering⟩ (h.follows.quiet hcall rfl rfl rfl rfl) rfl rfl
    ((hstep _).trans (h.plan_eq_self rfl)) rfl
    (by simp [Call.opensCondition, hcall.filter, hcall.join])⟩

theorem forType (h : Arranged start calls q s o) (result : Entity) :
    ∃ s' o', Arranged start (calls ++ [Call.forType result]) (q.forType result) s' o' := by
  obtain ⟨l, htag, hblocks⟩ := Orderly.supply_blocks h.blocks (q.projection result)
  have htagged : Orderly.WellTagged { o with columns := l } :=
    ⟨htag.trans h.tagged.columns, h.tagged.table, h.tagged.joins, h.tagged.restriction,
      h.tagged.grouping, h.tagged.ordering⟩
  exact ⟨_, _, h.keep (h.laid.forType result) (Orderly.closeSelect_blocks htagged hblocks)
    ⟨htagged.columns, h.tagged.table, h.tagged.joins, h.tagged.restriction, h.tagged.grouping,
      h.tagged.ordering⟩ (h.follows.quiet ⟨rfl, rfl, rfl, rfl⟩ rfl rfl rfl rfl) rfl rfl rfl rfl
    rfl⟩

theorem step (h : Arranged start calls q s o) (hfits : call.fits calls)
    (hcall : (call.apply q).outcome = .ok q') :
    ∃ s' o', Arranged start (calls ++ [call]) q' s' o' := by
  cases call with
  | join kind joined on =>
    rw [Call.apply_join] at hcall
    cases hcall
    exact h.join kind joined none on (fun _ => rfl) rfl rfl rfl rfl
  | joinAs joined tableAlias on =>
    obtain ⟨-, rfl⟩ := joinAs_eq_ok hcall
    exact h.join .inner joined (some tableAlias) on (fun _ => rfl) rfl rfl rfl rfl
  | filter e =>
    cases hcall
    exact h.filter e
  | andFilter e =>
    cases hcall
    exact h.extend .and e (fun _ => rfl) ⟨rfl, rfl, rfl, rfl⟩ hfits
  | orFilter e =>
    cases hcall
    exact h.extend .or e (fun _ => rfl) ⟨rfl, rfl, rfl, rfl⟩ hfits
  | orderBy d field =>
    rw [Call.apply_orderBy] at hcall
    cases hcall
    exact h.orderBy d field
  | thenBy d field =>
    rw [Call.apply_thenBy] at hcall
    cases hcall
    exact h.thenBy d field hfits
  | groupBy field =>
    have hlaid := h.laid.step hcall
    obtain ⟨f, hf, hcall⟩ := Rendering.outcome_bind_eq_ok hcall
    rw [Call.layOut, member_eq_ok hf] at hlaid
    cases hcall
    exact h.groupBy field f hlaid
  | map source =>
    obtain ⟨f, -, rfl⟩ := mapped_eq_ok (.inl rfl) hcall
    exact h.mapped f ⟨rfl, rfl, rfl, rfl⟩ fun _ => rfl
  | mapAs source name =>
    obtain ⟨f, -, rfl⟩ := mapped_eq_ok (.inr (.inl ⟨name, rfl⟩)) hcall
    exact h.mapped f ⟨rfl, rfl, rfl, rfl⟩ fun _ => rfl
  | mapWith source name converter =>
    obtain ⟨f, -, rfl⟩ := mapped_eq_ok (.inr (.inr ⟨name, converter, rfl⟩)) hcall
    exact h.mapped f ⟨rfl, rfl, rfl, rfl⟩ fun _ => rfl
  | ignore member =>
    have hlaid := h.laid.step hcall
    cases hcall
    exact ⟨_, _, h.keep hlaid h.blocks h.tagged
      (h.follows.quiet ⟨rfl, rfl, rfl, rfl⟩ rfl rfl rfl rfl) rfl rfl (h.plan_eq_self rfl) rfl rfl⟩
  | forType result =>
    cases hcall
    exact h.forType result

theorem opened (c : Compiler) (e : Entity) (tableAlias : Option String) :
    Arranged (.opening e tableAlias) [] (Select.start c e tableAlias) (Select.opening e tableAlias)
      { columns := { key := 1, tag := .select }
        table := { key := 2, tag := .fromClause, entity := some e.name, tableAlias } } where
  laid := .start c e tableAlias
  blocks := Outline.setAlias_blocks ..
  tagged :=
    { columns := rfl
      table := rfl
      joins := List.forall_mem_nil _
      restriction := by simp
      grouping := by simp
      ordering := by simp }
  follows := ⟨rfl, rfl, rfl, rfl⟩
  scope := rfl
  joins := rfl
  restriction := rfl
  target := rfl
  extendable := nofun

theorem run {c : Compiler} {e : Entity} {tableAlias : Option String} (hplaced : WellPlaced calls)
    (hrun : ((Select.start c e tableAlias).run calls).outcome = .ok q) :
    ∃ s o, Arranged (.opening e tableAlias) calls q s o := by
  refine run_induction (I := fun calls q => WellPlaced calls →
    ∃ s o, Arranged (.opening e tableAlias) calls q s o) [] ?_
    (fun _ => ⟨_, _, .opened c e tableAlias⟩) hrun hplaced
  intro calls call q p ih hcall hplaced
  obtain ⟨hcalls, hfits⟩ := hplaced.of_append
  obtain ⟨s, o, h⟩ := ih hcalls
  exact h.step hfits hcall

theorem tags_eq (h : Arranged start calls q s o) :
    q.draft.parts.map Part.tag = .select :: .fromClause :: clauseTags calls := by
  have htags : q.draft.parts.map Part.tag = o.blocks.map Block.tag := by
    rw [h.laid.draft_eq, Outline.draft, List.map_map, h.blocks]
    exact List.map_congr_left fun b _ => b.part_tag
  have hrestriction : (o.restriction.toList.map Block.clause).map Block.tag =
      if calls.any Call.isFilter then [.whereClause] else [] := by
    rw [← h.follows.filtered]
    cases hc : o.restriction with
    | none => rfl
    | some c => simp [Block.tag, h.tagged.restriction c hc]
  have hgrouping : (o.grouping.toList.map Block.listing).map Block.tag =
      if calls.any Call.isGrouping then [.groupBy] else [] := by
    rw [← h.follows.grouped]
    cases hl : o.grouping with
    | none => rfl
    | some l => simp [Block.tag, h.tagged.grouping l hl]
  have hordering : (o.ordering.toList.map Block.clause).map Block.tag =
      (calls.findSome? Call.orderTag?).toList := by
    rw [← h.follows.ordered]
    cases o.ordering <;> rfl
  have hjoins : (o.joins.map Block.clause).map Block.tag = calls.filterMap Call.joinTag? := by
    rw [← h.follows.joins, List.map_map]
    rfl
  have hcolumns : (Block.listing o.columns).tag = .select := h.tagged.columns
  have htable : (Block.clause o.table).tag = .fromClause := h.tagged.table
  rw [htags, Orderly.blocks, Orderly.sources, Orderly.tail]
  simp only [List.map_append, List.map_cons, hrestriction, hgrouping, hordering, hjoins, hcolumns,
    htable, clauseTags, List.cons_append, List.append_assoc]

theorem stands (h : Arranged start calls q s o) :
    List.Forall₂ Predicate.Stands (start.after calls).predicates
      (q.draft.parts.filter fun p => p.tag.isJoin || p.tag == .whereClause) := by
  have hfilter : (q.draft.parts.filter fun p => p.tag.isJoin || p.tag == .whereClause) =
      (o.joins ++ o.restriction.toList).map fun c => (Block.clause c).part := by
    rw [h.laid.draft_eq, Outline.draft, h.blocks]
    exact Orderly.filter_predicates h.tagged
  rw [hfilter]
  refine forall₂_stands ?_
  rw [Plan.predicates, List.map_append, List.map_append, h.joins]
  rw [← Option.toList_map, ← Option.toList_map, h.restriction]

end Arranged

/-- The clauses of a query stand in the order of SQL, whatever the order of the calls, and every
predicate stands in the clause that its call is about and is read there as what it says. -/
theorem clauses_in_place (c : Compiler) (o : Opening) (calls : List Call) (q : Select)
    (hplaced : WellPlaced calls) (hbuilt : (built c o calls).outcome = .ok q) :
    q.draft.parts.map Part.tag = .select :: .fromClause :: clauseTags calls ∧
      List.Forall₂ Predicate.Stands
        ((Plan.opening o.entity o.tableAlias).after calls).predicates
        (q.draft.parts.filter fun p => p.tag.isJoin || p.tag == .whereClause) := by
  obtain ⟨s, o, h⟩ := Arranged.run hplaced (built_eq_ok hbuilt).2
  exact ⟨h.tags_eq, h.stands⟩

/-- Calls far from the order of SQL. -/
theorem clauses_in_place_shuffled :
    let customer : Entity := ⟨"Customer", [⟨"Id", .int, false⟩, ⟨"Name", .string, true⟩]⟩
    let orders : Entity := ⟨"Orders", [⟨"CustomerId", .int, false⟩]⟩
    let calls : List Call :=
      [.orderBy .descending (.col "Name"), .filter (.equals (.col "Id") (.constant (.int 1))),
        .groupBy (.col "Name"), .join .left orders (.equals (.col "CustomerId") (.col "Id")),
        .andFilter (.col "Paid"), .filter (.col "Open"), .orFilter (.col "Late"),
        .thenBy .ascending (.col "Id")]
    ∃ q, WellPlaced calls ∧ (built {} (.from customer) calls).outcome = .ok q ∧
      q.draft.parts.map Part.tag =
        [.select, .fromClause, .leftJoin, .whereClause, .groupBy, .orderByDesc] ∧
      List.Forall₂ Predicate.Stands ((Plan.opening customer none).after calls).predicates
        (q.draft.parts.filter fun p => p.tag.isJoin || p.tag == .whereClause) := by
  intro customer orders calls
  have hplaced : WellPlaced calls := by decide
  obtain ⟨q, hq⟩ : ∃ q, (built {} (.from customer) calls).outcome = .ok q := ⟨_, rfl⟩
  obtain ⟨htags, hstands⟩ := clauses_in_place {} (.from customer) calls q hplaced hq
  exact ⟨q, hplaced, hq, htags, hstands⟩

end Select

end SqlComposer
