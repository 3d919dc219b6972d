import SqlComposer.Part.Render

/-!
# Columns without their tables

An expression whose columns are taken away from their tables has the same value, reads the same
deferred values and is written with the same atoms, and what it says where columns are not
qualified it says everywhere.
-/
namespace SqlComposer

def ColumnRef.unqualified (f : ColumnRef) : ColumnRef :=
  { f with entity := none, tableAlias := none }

/-- The views differ in nothing but the tables: in whether columns are qualified, and by what. -/
structure View.Alike (v w : View) : Prop where
  dialect : w.dialect = v.dialect
  tags : w.tags = v.tags
  allTags : w.allTags = v.allTags
  lastTableItem : w.lastTableItem = v.lastTableItem

theorem ColumnRef.qualifier?_unqualified (f : ColumnRef) (w : View) :
    f.unqualified.qualifier? w = none := by
  rw [qualifier?, unqualified]
  cases w.qualify <;> rfl

theorem ColumnRef.render_unqualified {v : View} (hv : v.qualify = false) (f : ColumnRef)
    (w : View) : f.unqualified.render w = f.render v := by
  have hqualifier : f.qualifier? v = none := by
    rw [qualifier?, if_neg (Bool.eq_false_iff.1 hv)]
  rw [render, render, qualifier?_unqualified, hqualifier]
  rfl

namespace Expr

def unqualified : Expr → Expr
  | .member _ _ field => .member none none field
  | .constant v => .constant v
  | .deferred d => .deferred d
  | .binary op left right => .binary op left.unqualified right.unqualified
  | .convert inner => .convert inner.unqualified
  | .computed description d => .computed description d

theorem evaluate_unqualified (e : Expr) : e.unqualified.evaluate = e.evaluate := by
  induction e with
  | member | constant | deferred | computed => rfl
  | convert inner ih => exact ih
  | binary op left right ihl ihr => rw [unqualified, evaluate, ihl, ihr, evaluate]

theorem isNullConstant_unqualified (e : Expr) : e.unqualified.isNullConstant = e.isNullConstant := by
  cases e <;> rfl

end Expr

namespace Atom

def unqualified : Atom → Atom
  | .field f => .field f.unqualified
  | .text s => .text s
  | .value v => .value v
  | .deferred d => .deferred d

theorem render_unqualified {v w : View} (hv : v.qualify = false) (h : v.Alike w) (a : Atom) :
    a.unqualified.render w = a.render v := by
  cases a with
  | text => rfl
  | field f => exact congrArg pure (f.render_unqualified hv w)
  | value | deferred => rw [unqualified, render, render, h.dialect]

end Atom

theorem renderAtoms_unqualified {v w : View} (hv : v.qualify = false) (h : v.Alike w)
    (atoms : List Atom) : renderAtoms w (atoms.map Atom.unqualified) = renderAtoms v atoms := by
  induction atoms with
  | nil => rfl
  | cons a atoms ih => rw [List.map_cons, renderAtoms, renderAtoms, a.render_unqualified hv h, ih]

namespace Scope

/-- The atoms of a reading without the tables of their columns, and what was read for them. -/
def bare (x : Reading (List Atom)) : Reading (List Atom) :=
  ⟨x.value.map Atom.unqualified, x.reads⟩

theorem columnRef_unqualified (scope : Scope) (entity tableAlias : Option String)
    (field : String) :
    (scope.columnRef entity tableAlias field).unqualified = columnRef {} none none field := by
  cases tableAlias <;> cases entity <;> rfl

variable (scope : Scope)

theorem verbatim_unqualified (e : Expr) :
    verbatim {} e.unqualified = bare (scope.verbatim e) := by
  induction e with
  | member entity tableAlias field =>
    rw [Expr.unqualified, verbatim, verbatim, ← scope.columnRef_unqualified entity tableAlias]
    rfl
  | constant | deferred | computed => rfl
  | convert inner ih => exact ih
  | binary op left right ihl ihr =>
    rw [Expr.unqualified, verbatim, verbatim, ihl, ihr]
    exact Reading.ext (by simp [bare, Atom.unqualified]) (by simp [bare])

theorem literal_unqualified (e : Expr) : literal {} e.unqualified = bare (scope.literal e) := by
  rw [literal, literal, e.evaluate_unqualified, verbatim_unqualified scope]
  refine Reading.ext ?_ ?_
  · cases h : e.evaluate.value <;> simp [bare, h, Atom.unqualified]
  · cases h : e.evaluate.value <;> simp [bare, h]

theorem nullTest?_unqualified (op : BinaryOp) (left right : Expr) :
    nullTest? op left.unqualified right.unqualified = nullTest? op left right := by
  rw [nullTest?, nullTest?, left.isNullConstant_unqualified, right.isNullConstant_unqualified]

theorem atoms_unqualified (e : Expr) : atoms {} e.unqualified = bare (scope.atoms e) := by
  induction e with
  | member entity tableAlias field => exact scope.verbatim_unqualified (.member entity tableAlias field)
  | constant | deferred => rfl
  | computed description d => exact scope.literal_unqualified (.computed description d)
  | convert inner ih => exact ih
  | binary op left right ihl ihr =>
    have hliteral := scope.literal_unqualified (.binary op left right)
    rw [Expr.unqualified] at hliteral ⊢
    rw [atoms, atoms, nullTest?_unqualified, ihl, ihr, hliteral]
    cases op.keyword? with
    | none => rfl
    | some keyword =>
      cases nullTest? op left right with
      | none => exact Reading.ext (by simp [bare, Atom.unqualified]) (by simp [bare])
      | some test =>
        obtain ⟨test, _ | _⟩ := test
        · exact Reading.ext (by simp [bare, Atom.unqualified]) (by simp [bare])
        · exact Reading.ext (by simp [bare, Atom.unqualified]) (by simp [bare])

end Scope

end SqlComposer
