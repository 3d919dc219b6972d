import SqlComposer.Proofs.Select.Call
import SqlComposer.Statement.Delete
import SqlComposer.Statement.Insert
import SqlComposer.Statement.Update

/-!
# Statements and their calls

An insertion takes an instance, an update assignments and restrictions, a deletion restrictions, a
query any calls. To write an instance back or to delete it is a run of such calls.
-/
namespace SqlComposer

/-- The instance that a statement addresses, and its key if it is not the one of the schema. -/
structure Target where
  values : List Value
  key : Option String := none

namespace Update

inductive Call where
  | set (member : String) (v : Value)
  | filter (predicate : Expr)

def Call.apply (q : Update) : Call → Reading Update
  | .set member v => pure (q.set member v)
  | .filter predicate => q.filter predicate

def run (q : Update) : List Call → Reading Update
  | [] => pure q
  | call :: calls => do run (← call.apply q) calls

def begin (c : Compiler) (e : Entity) : Option Target → Rendering Update
  | none => pure (ofEntity c e)
  | some t => ofInstance c e t.values t.key

def assignments (s : Schema) (t : Target) (predicate : Expr) : List Call :=
  (((s.fields.zip t.values).filter fun pair =>
    !(Key.members s t.key).contains pair.1.memberName).map fun pair =>
      .set pair.1.memberName pair.2) ++ [.filter predicate]

theorem value_run_append (q : Update) (before after : List Call) :
    (q.run (before ++ after)).value = ((q.run before).value.run after).value := by
  induction before generalizing q with
  | nil => rfl
  | cons call before ih => exact ih _

theorem value_run_set {α : Type} (q : Update) (member : α → String) (v : α → Value)
    (l : List α) :
    (q.run (l.map fun a => .set (member a) (v a))).value =
      l.foldl (fun q a => q.set (member a) (v a)) q := by
  induction l generalizing q with
  | nil => rfl
  | cons a l ih => exact ih _

theorem result?_ofInstance (c : Compiler) (e : Entity) (t : Target) :
    (ofInstance c e t.values t.key).result? =
      (Key.predicate (Schema.ofEntity e) t.values t.key).toOption.map fun predicate =>
        ((ofEntity c e).run (assignments (Schema.ofEntity e) t predicate)).value := by
  simp only [assignments, value_run_append, value_run_set]
  exact Rendering.result?_liftExcept_bind _ _

def given (e : Entity) : Option Target → Option (List Call)
  | none => some []
  | some t =>
    (Key.predicate (Schema.ofEntity e) t.values t.key).toOption.map
      (assignments (Schema.ofEntity e) t)

end Update

namespace Delete

def run (q : Delete) : List Expr → Reading Delete
  | [] => pure q
  | predicate :: predicates => do run (← q.filter predicate) predicates

def begin (c : Compiler) (e : Entity) : Option Target → Rendering Delete
  | none => pure (ofEntity c e)
  | some t => ofInstance c e t.values t.key

theorem result?_ofInstance (c : Compiler) (e : Entity) (t : Target) :
    (ofInstance c e t.values t.key).result? =
      (Key.predicate (Schema.ofEntity e) t.values t.key).toOption.map fun predicate =>
        ((ofEntity c e).run [predicate]).value :=
  Rendering.result?_liftExcept_bind _ _

def given (e : Entity) : Option Target → Option (List Expr)
  | none => some []
  | some t => (Key.predicate (Schema.ofEntity e) t.values t.key).toOption.map fun p => [p]

end Delete

def Insert.listed (e : Entity) (values : List Value) (ignored : List String) :
    List (Member × Value) :=
  (e.members.zip values).filter fun pair => !ignored.contains pair.1.name

/-- A statement as it is asked for, with its calls in order. -/
inductive Statement where
  | insert (e : Entity) (values : List Value) (ignored : List String)
  | update (e : Entity) (target : Option Target) (calls : List Update.Call)
  | delete (e : Entity) (target : Option Target) (predicates : List Expr)
  /-- a query for its own entity, or for another result -/
  | select (opening : Select.Opening) (calls : List Select.Call) (result : Option Entity)

namespace Statement

def compile (c : Compiler) : Statement → Rendering Compiled
  | .insert e values ignored => (ignored.foldl Insert.ignore (.ofInstance c e values)).compile
  | .update e target calls => do
    let q ← Update.begin c e target
    let q ← (ExceptT.lift (q.run calls) : Rendering Update)
    q.compile
  | .delete e target predicates => do
    let q ← Delete.begin c e target
    let q ← (ExceptT.lift (q.run predicates) : Rendering Delete)
    q.compile
  | .select o calls result => do
    let q ← Select.built c o calls
    q.compileAs (result.getD q.entity)

end Statement

/-! ### Instances that are refused -/

namespace Key

inductive Refused (e : Entity) : Option Target → Fault → Prop where
  | key {t : Target} {f : Fault} (h : predicate (Schema.ofEntity e) t.values t.key = .error f) :
    Refused e (some t) f

variable {e : Entity} {target : Option Target} {f : Fault}

theorem exists_refused {t : Target} {α : Type} {make : Expr → α}
    (h : (predicate (Schema.ofEntity e) t.values t.key).toOption.map make = none) :
    ∃ f, Refused e (some t) f :=
  (toOption_eq_none.1 (Option.map_eq_none_iff.1 h)).imp fun _ => .key

-- the predicate is asked for first, so its fault passes through all that comes behind it
theorem Refused.outcome_update (h : Refused e target f) (c : Compiler) (calls : List Update.Call) :
    (Statement.compile c (.update e target calls)).outcome = .error f := by
  cases h with
  | key h =>
    rw [Statement.compile, Update.begin, Update.ofInstance]
    refine Rendering.outcome_bind_of_error (Rendering.outcome_bind_of_error ?_ _) _
    exact h

theorem Refused.outcome_delete (h : Refused e target f) (c : Compiler) (predicates : List Expr) :
    (Statement.compile c (.delete e target predicates)).outcome = .error f := by
  cases h with
  | key h =>
    rw [Statement.compile, Delete.begin, Delete.ofInstance]
    refine Rendering.outcome_bind_of_error (Rendering.outcome_bind_of_error ?_ _) _
    exact h

end Key

section

variable {e : Entity} {target : Option Target}

theorem Update.exists_refused (h : given e target = none) : ∃ f, Key.Refused e target f := by
  cases target with
  | none => cases h
  | some t => exact Key.exists_refused h

theorem Delete.exists_refused (h : given e target = none) : ∃ f, Key.Refused e target f := by
  cases target with
  | none => cases h
  | some t => exact Key.exists_refused h

theorem Update.outcome_compile (c : Compiler) (calls : List Update.Call)
    {first : List Update.Call} (hfirst : Update.given e target = some first) :
    (Statement.compile c (.update e target calls)).outcome =
      ((Update.ofEntity c e).run (first ++ calls)).value.compile.outcome := by
  cases target with
  | none =>
    cases hfirst
    rw [Statement.compile, Rendering.outcome_bind]
    rfl
  | some t =>
    obtain ⟨p, hp, rfl⟩ := Option.map_eq_some_iff.1 hfirst
    have hbegin : (Update.begin c e (some t)).outcome =
        .ok ((Update.ofEntity c e).run (Update.assignments (Schema.ofEntity e) t p)).value := by
      rw [← Rendering.result?_eq_some, Update.begin, Update.result?_ofInstance, hp]
      rfl
    rw [Statement.compile, Rendering.outcome_bind, hbegin, Update.value_run_append]
    rfl

theorem Update.result?_compile_of_none (c : Compiler) (calls : List Update.Call)
    (hfirst : Update.given e target = none) :
    (Statement.compile c (.update e target calls)).result? = none :=
  have ⟨f, hrefused⟩ := Update.exists_refused hfirst
  toOption_eq_none.2 ⟨f, hrefused.outcome_update c calls⟩

theorem Delete.outcome_compile (c : Compiler) (predicates : List Expr)
    {first : List Expr} (hfirst : Delete.given e target = some first) :
    (Statement.compile c (.delete e target predicates)).outcome =
      ((Delete.ofEntity c e).run (first ++ predicates)).value.compile.outcome := by
  cases target with
  | none =>
    cases hfirst
    rw [Statement.compile, Rendering.outcome_bind]
    rfl
  | some t =>
    obtain ⟨p, hp, rfl⟩ := Option.map_eq_some_iff.1 hfirst
    have hbegin : (Delete.begin c e (some t)).outcome = .ok ((Delete.ofEntity c e).run [p]).value := by
      rw [← Rendering.result?_eq_some, Delete.begin, Delete.result?_ofInstance, hp]
      rfl
    rw [Statement.compile, Rendering.outcome_bind, hbegin]
    rfl

theorem Delete.result?_compile_of_none (c : Compiler) (predicates : List Expr)
    (hfirst : Delete.given e target = none) :
    (Statement.compile c (.delete e target predicates)).result? = none :=
  have ⟨f, hrefused⟩ := Delete.exists_refused hfirst
  toOption_eq_none.2 ⟨f, hrefused.outcome_delete c predicates⟩

end

end SqlComposer
