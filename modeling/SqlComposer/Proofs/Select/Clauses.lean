import Mathlib.Data.List.Induction
import SqlComposer.Proofs.Select.Plan

/-!
# What calls in any order ask for

A call that goes on with a condition or with an ordering is put into the clause that came last, and
stands by itself if there is none. So the clauses of a query are read off its calls, whether these
fit or not, and nothing goes astray just if all of them fit.
-/
namespace SqlComposer

namespace Tag

def isConnective : Tag → Bool
  | .andClause | .orClause | .thenBy | .thenByDesc => true
  | _ => false

end Tag

namespace Select

def Predicate.alone (addition : Joint × Phrase) : Predicate where
  tag := addition.1.tag
  condition := addition.2

/-- The clauses of a query, besides its first table, that have an expression. -/
inductive ClauseKind where
  | joins
  | restriction
  | ordering
  | strays
  deriving DecidableEq

def ClauseKind.has : ClauseKind → Tag → Bool
  | .joins => Tag.isJoin
  | .restriction => (· == .whereClause)
  | .ordering => Tag.startsOrder
  | .strays => Tag.isConnective

/-- What calls in any order ask for. -/
structure Clauses where
  plan : Plan
  ordering : Option Predicate := none
  /-- what found no clause to go on with -/
  strays : List (Joint × Phrase) := []

/-- The clauses that the latest condition belongs to. -/
def Plan.latest (p : Plan) : ClauseKind :=
  if p.onRestriction then .restriction else .joins

theorem Plan.latest_ne (p : Plan) : p.latest ≠ .ordering ∧ p.latest ≠ .strays := by
  rw [Plan.latest]
  split_ifs <;> exact ⟨nofun, nofun⟩

namespace Clauses

def opening (e : Entity) (tableAlias : Option String) : Clauses where
  plan := .opening e tableAlias

def of (x : Clauses) : ClauseKind → List Predicate
  | .joins => x.plan.joins
  | .restriction => x.plan.restriction.toList
  | .ordering => x.ordering.toList
  | .strays => x.strays.map .alone

def hasCondition (x : Clauses) : Bool :=
  !(x.of x.plan.latest).isEmpty

def leave (x : Clauses) (joint : Joint) (e : Expr) : Clauses :=
  { x with strays := x.strays ++ [(joint, ⟨x.plan.scope, e⟩)] }

def chain (x : Clauses) (joint : Joint) (e : Expr) : Clauses :=
  if x.hasCondition then { x with plan := x.plan.extend joint e } else x.leave joint e

def orderBy (x : Clauses) (d : Direction) (e : Expr) : Clauses :=
  { x with
    ordering := some (match x.ordering with
      | some o => o.extend d.joint ⟨x.plan.scope, e⟩
      | none => { tag := d.tag, condition := ⟨x.plan.scope, e⟩ }) }

def thenBy (x : Clauses) (d : Direction) (e : Expr) : Clauses :=
  if x.ordering.isSome then x.orderBy d e else x.leave d.joint e

def step (x : Clauses) : Call → Clauses
  | .andFilter e => x.chain .and e
  | .orFilter e => x.chain .or e
  | .orderBy d e => x.orderBy d e
  | .thenBy d e => x.thenBy d e
  | call => { x with plan := x.plan.step call }

def after (x : Clauses) (calls : List Call) : Clauses :=
  calls.foldl step x

end Clauses

/-! ### The kinds -/

namespace ClauseKind

variable {k k' : ClauseKind} {t : Tag}

theorem eq_of_has (h : k.has t = true) (h' : k'.has t = true) : k = k' := by
  cases k <;> cases k' <;> first | rfl | (cases t <;> first | (cases h; done) | cases h')

theorem not_has (h : k.has t = true) (hne : k' ≠ k) : k'.has t = false := by
  by_contra h'
  exact hne (eq_of_has (by simpa using h') h)

theorem has_joint (j : Joint) : strays.has j.tag = true := by
  cases j <;> rfl

theorem has_join (kind : JoinKind) : joins.has kind.tag = true :=
  kind.isJoin_tag

theorem has_direction (d : Direction) : ordering.has d.tag = true := by
  cases d <;> rfl

theorem not_has_apart (k : ClauseKind) : k.has .select = false ∧ k.has .groupBy = false := by
  cases k <;> exact ⟨rfl, rfl⟩

end ClauseKind

variable {x : Clauses} {k : ClauseKind}

/-! ### What a call asks for -/

namespace Clauses

theorem of_leave (x : Clauses) (joint : Joint) (e : Expr) :
    (x.leave joint e).of .strays = x.of .strays ++ [Predicate.alone (joint, ⟨x.plan.scope, e⟩)] ∧
      ∀ k, k ≠ .strays → (x.leave joint e).of k = x.of k := by
  refine ⟨List.map_append, fun k hk => ?_⟩
  cases k with
  | strays => exact absurd rfl hk
  | _ => rfl

theorem latest_extend (p : Plan) (joint : Joint) (e : Expr) :
    (p.extend joint e).latest = p.latest := by
  rw [Plan.latest, Plan.latest, Plan.extend]
  split_ifs <;> rfl

theorem of_extend {front : List Predicate} {y : Predicate}
    (hx : x.of x.plan.latest = front ++ [y]) (joint : Joint) (e : Expr) :
    let x' : Clauses := { x with plan := x.plan.extend joint e }
    x'.of x.plan.latest = front ++ [y.extend joint ⟨x.plan.scope, e⟩] ∧
      ∀ k, k ≠ x.plan.latest → x'.of k = x.of k := by
  intro x'
  by_cases hon : x.plan.onRestriction = true
  · have hlatest : x.plan.latest = .restriction := if_pos hon
    have hplan : x'.plan = { x.plan with
        restriction := x.plan.restriction.map (Predicate.extend joint ⟨x.plan.scope, e⟩) } :=
      if_pos hon
    rw [hlatest] at hx ⊢
    refine ⟨?_, fun k hk => ?_⟩
    · cases hr : x.plan.restriction with
      | none => simp [of, hr] at hx
      | some r =>
        have hxr : [] ++ [r] = front ++ [y] := (congrArg Option.toList hr).symm.trans hx
        obtain ⟨rfl, hy⟩ := List.append_inj' hxr rfl
        rw [of, hplan, hr, ← List.singleton_inj.1 hy]
        rfl
    · cases k with
      | restriction => exact absurd rfl hk
      | joins => rw [of, hplan, of]
      | _ => rfl
  · have hlatest : x.plan.latest = .joins := if_neg hon
    have hplan : x'.plan = { x.plan with
        joins := modifyLast (fun _ => true) (Predicate.extend joint ⟨x.plan.scope, e⟩)
          x.plan.joins } := if_neg hon
    rw [hlatest] at hx ⊢
    refine ⟨?_, fun k hk => ?_⟩
    · rw [of, hplan]
      rw [of] at hx
      rw [hx]
      exact modifyLast_append_cons rfl (List.forall_mem_nil _)
    · cases k with
      | joins => exact absurd rfl hk
      | restriction => rw [of, hplan, of]
      | _ => rfl

theorem of_join {kind : JoinKind} {joined : Entity} {tableAlias : Option String} {on : Expr}
    (x : Clauses) (hk : k ≠ .joins) :
    Clauses.of { x with plan := x.plan.join kind joined tableAlias on } k = x.of k := by
  cases k with
  | joins => exact absurd rfl hk
  | _ => rfl

theorem of_filter (x : Clauses) (e : Expr) (hk : k ≠ .restriction) :
    Clauses.of { x with plan := x.plan.filter e } k = x.of k := by
  cases k with
  | restriction => exact absurd rfl hk
  | _ => rfl

theorem of_orderBy (x : Clauses) (d : Direction) (e : Expr) (hk : k ≠ .ordering) :
    (x.orderBy d e).of k = x.of k := by
  cases k with
  | ordering => exact absurd rfl hk
  | _ => rfl

theorem exists_last_of_hasCondition (h : x.hasCondition = true) :
    ∃ front p, x.of x.plan.latest = front ++ [p] := by
  obtain hnil | ⟨front, p, hx⟩ := (x.of x.plan.latest).eq_nil_or_concat
  · rw [hasCondition, hnil] at h
    cases h
  · exact ⟨front, p, hx.trans (List.concat_eq_append ..)⟩

/-- Whether the clauses have what the call goes on with. -/
def takes (x : Clauses) : Call → Bool
  | .andFilter _ | .orFilter _ => x.hasCondition
  | .thenBy .. => x.ordering.isSome
  | _ => true

theorem hasCondition_step (x : Clauses) (call : Call) :
    (x.step call).hasCondition = (x.hasCondition || call.opensCondition) := by
  have hleave (joint : Joint) (e : Expr) : (x.leave joint e).hasCondition = x.hasCondition :=
    congrArg (fun l => !List.isEmpty l) ((x.of_leave joint e).2 _ x.plan.latest_ne.2)
  have hchain (joint : Joint) (e : Expr) : (x.chain joint e).hasCondition = x.hasCondition := by
    rw [chain]
    split_ifs with hcondition
    · obtain ⟨front, p, hx⟩ := exists_last_of_hasCondition hcondition
      rw [hasCondition, latest_extend, (of_extend hx joint e).1, hasCondition, hx]
      cases front <;> rfl
    · exact hleave joint e
  have horder (d : Direction) (e : Expr) : (x.orderBy d e).hasCondition = x.hasCondition :=
    congrArg (fun l => !List.isEmpty l) (x.of_orderBy d e x.plan.latest_ne.1)
  cases call with
  | join | joinAs =>
    simp [step, hasCondition, of, Plan.step, Plan.join, Plan.latest, Call.opensCondition,
      Call.joinTag?]
  | filter =>
    simp [step, hasCondition, of, Plan.step, Plan.filter, Plan.latest, Call.opensCondition,
      Call.isFilter]
  | andFilter e => exact (hchain .and e).trans (Bool.or_false _).symm
  | orFilter e => exact (hchain .or e).trans (Bool.or_false _).symm
  | orderBy d e => exact (horder d e).trans (Bool.or_false _).symm
  | thenBy d e =>
    rw [step, thenBy]
    split_ifs
    · exact (horder d e).trans (Bool.or_false _).symm
    · exact (hleave d.joint e).trans (Bool.or_false _).symm
  | groupBy | map | mapAs | mapWith | ignore | forType => exact (Bool.or_false _).symm

theorem ordering_step (x : Clauses) (call : Call) :
    (x.step call).ordering.isSome = (x.ordering.isSome || call.orderTag?.isSome) := by
  cases call with
  | orderBy => exact (Bool.or_true _).symm
  | andFilter | orFilter =>
    rw [step, chain]
    split_ifs <;> exact (Bool.or_false _).symm
  | thenBy =>
    rw [step, thenBy]
    split_ifs with ho
    · rw [ho]
      rfl
    · exact (Bool.or_false _).symm
  | _ => exact (Bool.or_false _).symm

theorem strays_step (x : Clauses) (call : Call) :
    (x.step call).strays = [] ↔ x.strays = [] ∧ x.takes call = true := by
  have hleave (joint : Joint) (e : Expr) : (x.leave joint e).strays ≠ [] := by
    simp [leave]
  cases call with
  | andFilter | orFilter =>
    rw [step, chain, takes]
    split_ifs with hcondition
    · simp [hcondition]
    · simp [hcondition, hleave]
  | thenBy =>
    rw [step, thenBy, takes]
    split_ifs with ho
    · simp [ho, orderBy]
    · simp [ho, hleave]
  | _ => exact (and_iff_left rfl).symm

theorem after_append (x : Clauses) (calls : List Call) (call : Call) :
    x.after (calls ++ [call]) = (x.after calls).step call := by
  simp [after]

/-- What a call can bring about and none takes away holds from the first call on that does. -/
theorem any_after {f : Clauses → Bool} {g : Call → Bool}
    (hstep : ∀ x call, f (x.step call) = (f x || g call)) (x : Clauses) (calls : List Call) :
    f (x.after calls) = (f x || calls.any g) := by
  induction calls generalizing x with
  | nil => exact (Bool.or_false _).symm
  | cons call calls ih => exact (ih (x.step call)).trans (by rw [hstep, List.any_cons, Bool.or_assoc])

theorem hasCondition_after (e : Entity) (tableAlias : Option String) (calls : List Call) :
    ((opening e tableAlias).after calls).hasCondition = calls.any Call.opensCondition :=
  any_after hasCondition_step (opening e tableAlias) calls

theorem ordering_after (e : Entity) (tableAlias : Option String) (calls : List Call) :
    ((opening e tableAlias).after calls).ordering.isSome =
      calls.any fun call => call.orderTag?.isSome :=
  any_after (f := fun x => x.ordering.isSome) ordering_step (opening e tableAlias) calls

theorem takes_after (e : Entity) (tableAlias : Option String) (calls : List Call) (call : Call) :
    ((opening e tableAlias).after calls).takes call = true ↔ call.fits calls := by
  cases call with
  | andFilter | orFilter => rw [takes, hasCondition_after, Call.fits]
  | thenBy => rw [takes, ordering_after, Call.fits]
  | _ => exact iff_of_true rfl trivial

theorem scope_after (e : Entity) (tableAlias : Option String) (calls : List Call) :
    ((opening e tableAlias).after calls).plan.scope =
      ((Plan.opening e tableAlias).after calls).scope := by
  induction calls using List.reverseRecOn with
  | nil => rfl
  | append_singleton calls call ih =>
    have hplan : (Plan.opening e tableAlias).after (calls ++ [call]) =
        ((Plan.opening e tableAlias).after calls).step call := by simp [Plan.after]
    have hextend (p : Plan) (joint : Joint) (e : Expr) : (p.extend joint e).scope = p.scope := by
      rw [Plan.extend]
      split_ifs <;> rfl
    rw [after_append, hplan]
    -- a call moves to another table in the same way whether it fits or not
    cases call with
    | join | joinAs | forType => rfl
    | andFilter | orFilter =>
      rw [step, chain, Plan.step, hextend, ← ih]
      split_ifs
      · exact hextend _ _ _
      · rfl
    | thenBy =>
      rw [step, thenBy]
      split_ifs <;> exact ih
    | _ => exact ih

end Clauses

theorem wellPlaced_append {calls : List Call} {call : Call} :
    WellPlaced (calls ++ [call]) ↔ WellPlaced calls ∧ call.fits calls := by
  refine ⟨WellPlaced.of_append, fun ⟨hcalls, hcall⟩ before c after hsplit => ?_⟩
  obtain rfl | ⟨after, last, rfl⟩ := after.eq_nil_or_concat
  · obtain ⟨rfl, hc⟩ := List.append_inj' hsplit rfl
    rwa [← List.singleton_inj.1 hc]
  · rw [List.concat_eq_append, ← List.cons_append, ← List.append_assoc] at hsplit
    exact hcalls before c after (List.append_inj' hsplit rfl).1

theorem strays_eq_nil_iff (e : Entity) (tableAlias : Option String) (calls : List Call) :
    ((Clauses.opening e tableAlias).after calls).strays = [] ↔ WellPlaced calls := by
  induction calls using List.reverseRecOn with
  | nil => exact iff_of_true rfl fun _ _ _ hsplit => by simp at hsplit
  | append_singleton calls call ih =>
    rw [Clauses.after_append, Clauses.strays_step, ih, Clauses.takes_after, wellPlaced_append]

end Select

end SqlComposer
