import SqlComposer.Proofs.Select.Strings
import SqlComposer.Proofs.Statement.Drawn

/-!
# Insertions, updates and deletions with other strings

Other strings in an instance, in an assignment or in a restriction make the same statement, with
those strings.
-/
namespace SqlComposer

variable {f : String → String}

def Target.mapStrings (f : String → String) (t : Target) : Target :=
  { t with values := t.values.map (Value.mapString f) }

namespace Key

variable {s : Schema} {values : List Value}

theorem comparison_mapStrings (member : String) :
    comparison s (values.map (Value.mapString f)) member =
      (comparison s values member).map (Expr.mapStrings f) := by
  rw [comparison, comparison]
  cases s.field? member with
  | none => rfl
  | some d =>
    simp only [FieldDef.valueOf?, List.getElem?_map]
    cases values[d.ordinal]? <;> rfl

theorem mapM_comparison_mapStrings (members : List String) :
    members.mapM (comparison s (values.map (Value.mapString f))) =
      (members.mapM (comparison s values)).map (List.map (Expr.mapStrings f)) := by
  induction members with
  | nil => rfl
  | cons member members ih =>
    rw [List.mapM_cons, List.mapM_cons, comparison_mapStrings, ih]
    cases comparison s values member with
    | error => rfl
    | ok => cases members.mapM (comparison s values) <;> rfl

theorem foldl_conj_mapStrings (first : Expr) (rest : List Expr) :
    (rest.map (Expr.mapStrings f)).foldl Expr.conj (first.mapStrings f) =
      (rest.foldl Expr.conj first).mapStrings f := by
  induction rest generalizing first with
  | nil => rfl
  | cons p rest ih => exact ih (first.conj p)

theorem predicate_mapStrings (t : Target) :
    Key.predicate s (t.mapStrings f).values (t.mapStrings f).key =
      (Key.predicate s t.values t.key).map (Expr.mapStrings f) := by
  rw [Key.predicate, Key.predicate]
  simp only [Target.mapStrings, mapM_comparison_mapStrings]
  cases (members s t.key).mapM (comparison s t.values) with
  | error => rfl
  | ok comparisons =>
    cases comparisons with
    | nil => rfl
    | cons first rest => exact congrArg Except.ok (foldl_conj_mapStrings first rest)

end Key

theorem zip_mapString {α : Type} (fields : List α) (values : List Value) (p : α → Bool) :
    ((fields.zip (values.map (Value.mapString f))).filter fun pair => p pair.1) =
      ((fields.zip values).filter fun pair => p pair.1).map fun pair =>
        (pair.1, pair.2.mapString f) := by
  rw [List.zip_map_right, List.filter_map]
  rfl

namespace Update

def mapStrings (f : String → String) (q : Update) : Update :=
  { q with draft := q.draft.mapStrings f }

def Call.mapStrings (f : String → String) : Call → Call
  | .set member v => .set member (v.mapString f)
  | .filter predicate => .filter (predicate.mapStrings f)

theorem apply_mapStrings (q : Update) (call : Call) :
    ((call.mapStrings f).apply (q.mapStrings f)).value = (call.apply q).value.mapStrings f := by
  cases call with
  | set member v =>
    exact congrArg (fun t => { q with draft := q.draft.spend 1 t })
      (q.draft.toTree.addToLast_mapParameters
        ((q.entry member v q.draft.nextKey).part) .assignments)
  | filter predicate =>
    have hdraft : ((q.mapStrings f).draft.addRestriction { entity := some q.schema.name }
          (predicate.mapStrings f) fun _ => false).value =
        (q.draft.addRestriction { entity := some q.schema.name } predicate
          fun _ => false).value.mapStrings f :=
      q.draft.addRestriction_mapStrings _ predicate fun _ => rfl
    exact congrArg (fun draft => { q with draft }) hdraft

theorem run_mapStrings (q : Update) (calls : List Call) :
    ((q.mapStrings f).run (calls.map (Call.mapStrings f))).value =
      (q.run calls).value.mapStrings f := by
  induction calls generalizing q with
  | nil => rfl
  | cons call calls ih =>
    rw [List.map_cons, run, run, Reading.value_bind, Reading.value_bind, apply_mapStrings]
    exact ih _

theorem assignments_mapStrings (s : Schema) (t : Target) (predicate : Expr) :
    assignments s (t.mapStrings f) (predicate.mapStrings f) =
      (assignments s t predicate).map (Call.mapStrings f) := by
  simp only [assignments, Target.mapStrings, List.map_append, List.map_map]
  rw [zip_mapString s.fields t.values fun d => !(Key.members s t.key).contains d.memberName,
    List.map_map]
  rfl

theorem given_mapStrings (e : Entity) (target : Option Target) :
    given e (target.map (Target.mapStrings f)) =
      (given e target).map (List.map (Call.mapStrings f)) := by
  cases target with
  | none => rfl
  | some t =>
    simp only [Option.map_some, given, Key.predicate_mapStrings]
    cases Key.predicate (Schema.ofEntity e) t.values t.key with
    | error => rfl
    | ok predicate => exact congrArg some (assignments_mapStrings _ t predicate)

theorem assignmentCount_mapStrings (q : Update) :
    (q.mapStrings f).assignmentCount = q.assignmentCount := by
  have hparts : (q.mapStrings f).draft.partsOf .assignments =
      (q.draft.partsOf .assignments).map (Part.mapStrings f) :=
    q.draft.toTree.partsOf_mapParameters .assignments
  simp only [assignmentCount, hparts, List.length_flatMap, List.map_map]
  congr 2
  funext p
  rw [Function.comp_apply, Part.mapStrings, Part.children_mapParameters, List.length_map]

end Update

namespace Delete

def mapStrings (f : String → String) (q : Delete) : Delete :=
  { q with draft := q.draft.mapStrings f }

theorem run_mapStrings (q : Delete) (predicates : List Expr) :
    ((q.mapStrings f).run (predicates.map (Expr.mapStrings f))).value =
      (q.run predicates).value.mapStrings f := by
  induction predicates generalizing q with
  | nil => rfl
  | cons p predicates ih =>
    have hfilter : ((q.mapStrings f).filter (p.mapStrings f)).value =
        (q.filter p).value.mapStrings f :=
      congrArg (fun draft => { q with draft })
        (q.draft.addRestriction_mapStrings _ p fun _ => rfl)
    rw [List.map_cons, run, run, Reading.value_bind, Reading.value_bind, hfilter]
    exact ih _

theorem given_mapStrings (e : Entity) (target : Option Target) :
    given e (target.map (Target.mapStrings f)) =
      (given e target).map (List.map (Expr.mapStrings f)) := by
  cases target with
  | none => rfl
  | some t =>
    simp only [Option.map_some, given, Key.predicate_mapStrings]
    cases Key.predicate (Schema.ofEntity e) t.values t.key <;> rfl

end Delete

namespace Insert

theorem foldl_ignore (q : Insert) (ignored : List String) :
    ignored.foldl ignore q = { q with ignored := q.ignored ++ ignored } := by
  induction ignored generalizing q with
  | nil => simp
  | cons member ignored ih => simp [ih, ignore]

theorem addPair_mapStrings (d : Draft) (m : FieldDef) (v : Value) :
    addPair (d.mapStrings f) m (v.mapString f) = (addPair d m v).mapStrings f := by
  have hlist (d : Draft) (e : Entry) (tag : Tag) : (d.mapStrings f).spend 1
        ((d.mapStrings f).addToLast (e.part.mapStrings f) tag) =
      (d.spend 1 (d.addToLast e.part tag)).mapStrings f :=
    congrArg (d.mapStrings f |>.spend 1) (d.toTree.addToLast_mapParameters e.part tag)
  have hcolumn := hlist d (column m d.nextKey) .insertFields
  have hvalue := hlist (d.spend 1 (d.addToLast (column m d.nextKey).part .insertFields))
    (value m v (d.nextKey + 1)) .values
  rw [← hcolumn] at hvalue
  exact hvalue

theorem draft_mapStrings (q : Insert) :
    ({ q with values := q.values.map (Value.mapString f) } : Insert).draft =
      q.draft.mapStrings f := by
  have hpairs : ({ q with values := q.values.map (Value.mapString f) } : Insert).pairs =
      q.pairs.map fun pair => (pair.1, pair.2.mapString f) :=
    zip_mapString q.schema.fields q.values fun m => !q.ignored.contains m.memberName
  have hfold (pairs : List (FieldDef × Value)) (d : Draft) :
      (pairs.map fun pair => (pair.1, pair.2.mapString f)).foldl
          (fun d pair => addPair d pair.1 pair.2) (d.mapStrings f) =
        (pairs.foldl (fun d pair => addPair d pair.1 pair.2) d).mapStrings f := by
    induction pairs generalizing d with
    | nil => rfl
    | cons pair pairs ih =>
      rw [List.map_cons, List.foldl_cons, List.foldl_cons, addPair_mapStrings]
      exact ih _
  rw [draft, hpairs]
  exact hfold q.pairs q.opening

end Insert

end SqlComposer
