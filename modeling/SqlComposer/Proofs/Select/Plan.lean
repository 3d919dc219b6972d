import SqlComposer.Proofs.Expr.Operand
import SqlComposer.Proofs.Select.Laid

/-!
# What calls ask for

The joins and the restriction that a sequence of calls asks for, read off the calls alone: which
condition starts each of them and what is put onto it with `AND` and `OR`.
-/
namespace SqlComposer.Select

/-- An expression, and what its columns without a table belong to. -/
structure Phrase where
  scope : Scope
  expr : Expr

def Phrase.atoms (p : Phrase) : List Atom :=
  (p.scope.atoms p.expr).value

def Phrase.operand (p : Phrase) : Operand :=
  .ofExpr p.scope p.expr

theorem Phrase.reads (p : Phrase) (key : Key) : Reads (Part.ofAtoms key p.atoms) p.operand :=
  .atoms p.scope p.expr key

/-- The parts of a phrase, with the keys from `key` on. They are read as its operand. -/
structure Phrase.Body (p : Phrase) (key : Key) (body : List Part) : Prop where
  parts : body = Part.ofAtoms key p.atoms
  reads : Reads body p.operand

theorem Phrase.body (p : Phrase) (key : Key) : p.Body key (Part.ofAtoms key p.atoms) :=
  ⟨rfl, p.reads key⟩

structure Predicate where
  tag : Tag
  entity : Option String := none
  tableAlias : Option String := none
  condition : Phrase
  additions : List (Joint × Phrase) := []

def Continues (addition : Joint × Phrase) (p : Part) : Prop :=
  ∃ key body, addition.2.Body (key + 1) body ∧ p = .clause key addition.1.tag none none body

/-- A clause that has a condition as its body and the additions nested in it, in order. -/
def Predicate.Stands (x : Predicate) (p : Part) : Prop :=
  ∃ key body nested, x.condition.Body (key + 1) body ∧
    List.Forall₂ Continues x.additions nested ∧
      p = .clause key x.tag x.entity x.tableAlias (body ++ nested)

def Predicate.extend (joint : Joint) (phrase : Phrase) (p : Predicate) : Predicate :=
  { p with additions := p.additions ++ [(joint, phrase)] }

structure Plan where
  scope : Scope
  joins : List Predicate := []
  restriction : Option Predicate := none
  /-- whether the latest condition belongs to the restriction and not to a join -/
  onRestriction : Bool := false

namespace Plan

def opening (e : Entity) (tableAlias : Option String) : Plan where
  scope := { entity := some e.name, tableAlias }

def join (p : Plan) (kind : JoinKind) (joined : Entity) (tableAlias : Option String) (on : Expr) :
    Plan :=
  let scope : Scope := { entity := some joined.name, tableAlias }
  { p with
    scope
    joins := p.joins ++
      [{ tag := kind.tag, entity := some joined.name, tableAlias, condition := ⟨scope, on⟩ }]
    onRestriction := false }

def filter (p : Plan) (e : Expr) : Plan :=
  { p with
    restriction := some (match p.restriction with
      | some r => r.extend .and ⟨p.scope, e⟩
      | none => { tag := .whereClause, condition := ⟨p.scope, e⟩ })
    onRestriction := true }

def extend (p : Plan) (joint : Joint) (e : Expr) : Plan :=
  if p.onRestriction then
    { p with restriction := p.restriction.map (Predicate.extend joint ⟨p.scope, e⟩) }
  else
    { p with joins := modifyLast (fun _ => true) (Predicate.extend joint ⟨p.scope, e⟩) p.joins }

def step (p : Plan) : Call → Plan
  | .join kind joined on => p.join kind joined none on
  | .joinAs joined tableAlias on => p.join .inner joined (some tableAlias) on
  | .filter e => p.filter e
  | .andFilter e => p.extend .and e
  | .orFilter e => p.extend .or e
  | .forType result => { p with scope := { entity := some result.name } }
  | _ => p

def after (p : Plan) (calls : List Call) : Plan :=
  calls.foldl step p

def predicates (p : Plan) : List Predicate :=
  p.joins ++ p.restriction.toList

end Plan

namespace Call

def joinTag? : Call → Option Tag
  | .join kind _ _ => some kind.tag
  | .joinAs .. => some .join
  | _ => none

def isFilter : Call → Bool
  | .filter _ => true
  | _ => false

def isGrouping : Call → Bool
  | .groupBy _ => true
  | _ => false

def orderTag? : Call → Option Tag
  | .orderBy d _ => some d.tag
  | _ => none

def opensCondition (call : Call) : Bool :=
  call.isFilter || call.joinTag?.isSome

/-- Whether a call may follow the calls before it: `andFilter` and `orFilter` need a condition to
go on with, `thenBy` an ordering. -/
def fits (before : List Call) : Call → Prop
  | .andFilter _ | .orFilter _ => before.any opensCondition = true
  | .thenBy .. => (before.any fun call => call.orderTag?.isSome) = true
  | _ => True

end Call

def WellPlaced (calls : List Call) : Prop :=
  ∀ before call after, calls = before ++ call :: after → call.fits before

/-- The same call by call, so that it can be decided. -/
def fitsAll (before : List Call) : List Call → Prop
  | [] => True
  | call :: rest => call.fits before ∧ fitsAll (before ++ [call]) rest

theorem fitsAll_iff {before calls : List Call} :
    fitsAll before calls ↔
      ∀ front call after, calls = front ++ call :: after → call.fits (before ++ front) := by
  induction calls generalizing before with
  | nil => simp [fitsAll]
  | cons call rest ih =>
    rw [fitsAll, ih]
    constructor
    · rintro ⟨hcall, hrest⟩ (_ | ⟨c, front⟩) c' after hsplit
      · cases hsplit
        rwa [List.append_nil]
      · cases hsplit
        simpa using hrest front c' after rfl
    · intro h
      refine ⟨by simpa using h [] call rest rfl, fun front c after hsplit => ?_⟩
      simpa using h (call :: front) c after (by rw [hsplit, List.cons_append])

instance (before : List Call) (call : Call) : Decidable (call.fits before) :=
  match call with
  | .andFilter _ | .orFilter _ | .thenBy .. => inferInstanceAs (Decidable (_ = true))
  | .join .. | .joinAs .. | .filter _ | .orderBy .. | .groupBy _ | .map _ | .mapAs .. | .mapWith ..
  | .ignore _ | .forType _ => inferInstanceAs (Decidable True)

instance decidableFitsAll (before : List Call) :
    (calls : List Call) → Decidable (fitsAll before calls)
  | [] => inferInstanceAs (Decidable True)
  | call :: rest =>
    let _ := decidableFitsAll (before ++ [call]) rest
    inferInstanceAs (Decidable (_ ∧ _))

instance (calls : List Call) : Decidable (WellPlaced calls) :=
  decidable_of_iff (fitsAll [] calls) (by simp only [fitsAll_iff, List.nil_append, WellPlaced])

theorem WellPlaced.of_append {calls : List Call} {call : Call}
    (h : WellPlaced (calls ++ [call])) : WellPlaced calls ∧ call.fits calls := by
  refine ⟨fun before c after hsplit => ?_, h calls call [] rfl⟩
  exact h before c (after ++ [call]) (by rw [hsplit, List.append_assoc, List.cons_append])

def clauseTags (calls : List Call) : List Tag :=
  calls.filterMap Call.joinTag? ++
    (if calls.any Call.isFilter then [.whereClause] else []) ++
    (if calls.any Call.isGrouping then [.groupBy] else []) ++
    (calls.findSome? Call.orderTag?).toList

end SqlComposer.Select
