import SqlComposer.Proofs.Outcome
import SqlComposer.Statement.Select

/-!
# Calls on a query

A query is opened over a table and then takes calls in any order, until one of them fails or the
query is compiled.
-/
namespace SqlComposer.Select

inductive JoinKind where
  | inner
  | left
  | right
  | full
  deriving DecidableEq

def JoinKind.tag : JoinKind → Tag
  | .inner => .join
  | .left => .leftJoin
  | .right => .rightJoin
  | .full => .fullJoin

theorem JoinKind.isJoin_tag (k : JoinKind) : k.tag.isJoin = true := by
  cases k <;> rfl

inductive Direction where
  | ascending
  | descending
  deriving DecidableEq

def Direction.tag : Direction → Tag
  | .ascending => .orderBy
  | .descending => .orderByDesc

inductive Call where
  | join (kind : JoinKind) (joined : Entity) (on : Expr)
  | joinAs (joined : Entity) (tableAlias : String) (on : Expr)
  | filter (predicate : Expr)
  | andFilter (predicate : Expr)
  | orFilter (predicate : Expr)
  | orderBy (direction : Direction) (field : Expr)
  | thenBy (direction : Direction) (field : Expr)
  | groupBy (field : Expr)
  | map (source : Expr)
  | mapAs (source : Expr) (name : String)
  | mapWith (source : Expr) (name : Option String) (converter : Converter)
  | ignore (member : String)
  | forType (result : Entity)

def Call.apply (q : Select) : Call → Rendering Select
  | .join .inner joined on => ExceptT.lift (q.join joined on)
  | .join .left joined on => ExceptT.lift (q.leftJoin joined on)
  | .join .right joined on => ExceptT.lift (q.rightJoin joined on)
  | .join .full joined on => ExceptT.lift (q.fullJoin joined on)
  | .joinAs joined tableAlias on => q.joinAs joined tableAlias on
  | .filter predicate => ExceptT.lift (q.filter predicate)
  | .andFilter predicate => ExceptT.lift (q.andFilter predicate)
  | .orFilter predicate => ExceptT.lift (q.orFilter predicate)
  | .orderBy .ascending field => ExceptT.lift (q.orderBy field)
  | .orderBy .descending field => ExceptT.lift (q.orderByDesc field)
  | .thenBy .ascending field => ExceptT.lift (q.thenBy field)
  | .thenBy .descending field => ExceptT.lift (q.thenByDesc field)
  | .groupBy field => q.groupBy field
  | .map source => q.map source
  | .mapAs source name => q.mapAs source name
  | .mapWith source name converter => q.mapWith source name converter
  | .ignore member => pure (q.ignore member)
  | .forType result => pure (q.forType result)

def run (q : Select) : List Call → Rendering Select
  | [] => pure q
  | call :: calls => do run (← call.apply q) calls

inductive Opening where
  | from (e : Entity)
  | fromAs (e : Entity) (tableAlias : String)

def Opening.start (c : Compiler) : Opening → Except Fault Select
  | .from e => .ok (Select.ofEntity c e)
  | .fromAs e tableAlias => Select.ofEntityAs c e tableAlias

def built (c : Compiler) (o : Opening) (calls : List Call) : Rendering Select := do
  run (← (liftM (o.start c) : Rendering Select)) calls

variable {q q' : Select} {c : Compiler}

theorem run_cons_eq_ok {call : Call} {calls : List Call}
    (h : (q.run (call :: calls)).outcome = .ok q') :
    ∃ p, (call.apply q).outcome = .ok p ∧ (p.run calls).outcome = .ok q' :=
  Rendering.outcome_bind_eq_ok h

theorem run_append_eq_ok {before after : List Call}
    (h : (q.run (before ++ after)).outcome = .ok q') :
    ∃ p, (q.run before).outcome = .ok p ∧ (p.run after).outcome = .ok q' := by
  induction before generalizing q with
  | nil => exact ⟨q, rfl, h⟩
  | cons call before ih =>
    obtain ⟨p, hcall, hrest⟩ := run_cons_eq_ok h
    obtain ⟨r, hbefore, hafter⟩ := ih hrest
    exact ⟨r, by rw [run, Rendering.outcome_bind, hcall]; exact hbefore, hafter⟩

/-- What each call keeps up, for itself and the calls so far, holds behind a run. -/
theorem run_induction {I : List Call → Select → Prop} (before : List Call) {calls : List Call}
    (hstep : ∀ {calls : List Call} {call : Call} {q p : Select}, I calls q →
      (call.apply q).outcome = .ok p → I (calls ++ [call]) p)
    (h : I before q) (hrun : (q.run calls).outcome = .ok q') : I (before ++ calls) q' := by
  induction calls generalizing before q with
  | nil =>
    cases hrun
    rwa [List.append_nil]
  | cons call calls ih =>
    obtain ⟨p, hcall, hrest⟩ := run_cons_eq_ok hrun
    rw [List.append_cons]
    exact ih (before ++ [call]) (hstep h hcall) hrest

namespace Opening

def entity : Opening → Entity
  | .from e => e
  | .fromAs e _ => e

def tableAlias : Opening → Option String
  | .from _ => none
  | .fromAs _ a => some a

theorem start_eq_ok {o : Opening} (h : o.start c = .ok q) :
    q = Select.start c o.entity o.tableAlias ∧ o.tableAlias ≠ some "" := by
  cases o with
  | «from» e =>
    cases h
    exact ⟨rfl, nofun⟩
  | fromAs e a =>
    rw [Opening.start, Select.ofEntityAs] at h
    by_cases ha : a = ""
    · rw [if_pos ha] at h
      cases h
    · rw [if_neg ha] at h
      cases h
      exact ⟨rfl, fun h => ha (Option.some.inj h)⟩

end Opening

theorem built_eq_ok {o : Opening} {calls : List Call} (h : (built c o calls).outcome = .ok q) :
    o.tableAlias ≠ some "" ∧
      ((Select.start c o.entity o.tableAlias).run calls).outcome = .ok q := by
  obtain ⟨p, hp, hrun⟩ := Rendering.outcome_bind_eq_ok h
  rw [Rendering.outcome_liftExcept] at hp
  obtain ⟨rfl, halias⟩ := Opening.start_eq_ok hp
  exact ⟨halias, hrun⟩

end SqlComposer.Select
