import SqlComposer.Proofs.Draft.Parameters
import SqlComposer.Proofs.Expr.Strings

/-!
# Drafts with other strings

An expression with other strings goes into a draft with other strings at the same place, and with
the same keys.
-/
namespace SqlComposer

variable (f : String → String)

def ParameterSource.mapString : ParameterSource → ParameterSource
  | .value v => .value (v.mapString f)
  | .deferred d => .deferred (d.mapString f)
  | .expr e => .expr (e.mapStrings f)

def Parameter.mapString (p : Parameter) : Parameter :=
  { p with source := p.source.mapString f }

def Part.mapStrings : Part → Part :=
  Part.mapParameters (Parameter.mapString f)

def Tree.mapStrings : Tree → Tree :=
  Tree.mapParameters (Parameter.mapString f)

def Draft.mapStrings : Draft → Draft :=
  Draft.mapParameters (Parameter.mapString f)

namespace Part

theorem mapStrings_ofAtom (key : Key) (a : Atom) :
    (ofAtom key a).mapStrings f = ofAtom key (a.mapString f) := by
  cases a <;> rfl

theorem mapParametersAll_ofAtoms (key : Key) (l : List Atom) :
    mapParametersAll (Parameter.mapString f) (ofAtoms key l) =
      ofAtoms key (l.map (Atom.mapString f)) := by
  induction l generalizing key with
  | nil => rfl
  | cons a l ih =>
    rw [ofAtoms, mapParametersAll, ih, List.map_cons, ofAtoms, ← mapStrings_ofAtom, mapStrings]

theorem mapStrings_clause (key : Key) (tag : Tag) (entity tableAlias : Option String)
    (l : List Atom) :
    (clause key tag entity tableAlias (ofAtoms (key + 1) l)).mapStrings f =
      clause key tag entity tableAlias (ofAtoms (key + 1) (l.map (Atom.mapString f))) := by
  rw [mapStrings, clause, mapParameters, mapParametersAll_ofAtoms, clause]

end Part

namespace Draft

variable {f} (d : Draft) (scope : Scope) (e : Expr) (tag : Tag)

theorem expressionClause_mapStrings :
    ((d.mapStrings f).expressionClause scope (e.mapStrings f) tag).value =
      ((d.expressionClause scope e tag).value.1.mapStrings f,
        (d.expressionClause scope e tag).value.2) := by
  simp only [expressionClause, Reading.value_bind, Reading.value_pure, Scope.atoms_mapStrings,
    Part.mapStrings_clause, List.length_map]
  rfl

theorem addExpression_mapStrings :
    ((d.mapStrings f).addExpression scope (e.mapStrings f) tag).value =
      (d.addExpression scope e tag).value.mapStrings f := by
  simp only [addExpression, Reading.value_bind, Reading.value_pure, expressionClause_mapStrings]
  exact congrArg _ (d.toTree.add_mapParameters _)

theorem nestExpression_mapStrings {anchor : Part → Bool}
    (hanchor : ∀ p : Part, anchor (p.mapStrings f) = anchor p) :
    ((d.mapStrings f).nestExpression scope (e.mapStrings f) tag anchor).value =
      (d.nestExpression scope e tag anchor).value.mapStrings f := by
  simp only [nestExpression, Reading.value_bind, Reading.value_pure, expressionClause_mapStrings]
  exact congrArg _ (d.toTree.addToLastWhere_mapParameters hanchor _)

theorem addRestriction_mapStrings {before : Part → Bool}
    (hbefore : ∀ p : Part, before (p.mapStrings f) = before p) :
    ((d.mapStrings f).addRestriction scope (e.mapStrings f) before).value =
      (d.addRestriction scope e before).value.mapStrings f := by
  have hcontains : (d.mapStrings f).contains .whereClause = d.contains .whereClause :=
    d.toTree.contains_mapParameters .whereClause
  rw [addRestriction, addRestriction, hcontains]
  split_ifs
  · exact d.nestExpression_mapStrings scope e .andClause fun p => by
      rw [Part.mapStrings, Part.tag_mapParameters]
  · simp only [Reading.value_bind, Reading.value_pure, expressionClause_mapStrings]
    exact congrArg _ (d.toTree.addAheadOf_mapParameters hbefore _)

theorem extendClause_mapStrings (clause : Key) :
    ((d.mapStrings f).extendClause clause scope (e.mapStrings f)).value =
      (d.extendClause clause scope e).value.mapStrings f := by
  have hfind : (d.mapStrings f).find? clause = (d.find? clause).map (Part.mapStrings f) :=
    d.toTree.find?_mapParameters clause
  have hpush (l : List Atom) (key : Key) (p : Part) :
      (Part.ofAtoms key (l.map (Atom.mapString f))).foldl (fun q child => Part.push child q)
          (p.mapStrings f) =
        ((Part.ofAtoms key l).foldl (fun q child => Part.push child q) p).mapStrings f := by
    have h := (Part.carries_mapParameters (Parameter.mapString f)).foldl_push
      (Part.ofAtoms key l) p
    rw [← Part.mapParametersAll_eq, Part.mapParametersAll_ofAtoms] at h
    exact h.symm
  rw [extendClause, extendClause, hfind]
  cases d.find? clause with
  | none => rfl
  | some p =>
    cases p with
    | leaf => rfl
    | group =>
      simp only [Option.map_some, Part.mapStrings, Part.mapParameters, Reading.value_bind,
        Reading.value_pure, Scope.atoms_mapStrings, List.length_map]
      exact congrArg _ (d.toTree.update_mapParameters (hpush _ _) clause)

end Draft

end SqlComposer
