import SqlComposer.Proofs.Expr.Operand
import SqlComposer.Proofs.Text

/-!
# The text of an expression

An expression is written as the operand that its parts say, whatever its columns are written as.
-/
namespace SqlComposer

namespace Parameter

/-- The literal of a value that is known without its statement. -/
def literal (d : Dialect) (p : Parameter) : String :=
  match p.source with
  | .value v => d.written v none
  | .deferred x => d.written x.result none
  | .expr _ => ""

def atom? (p : Parameter) : Option Atom :=
  match p.source with
  | .value v => some (.value v)
  | .deferred d => some (.deferred d)
  | .expr _ => none

end Parameter

def Part.atom? : Part → Option Atom
  | .leaf _ (.text s) => some (.text s)
  | .leaf _ (.field f) => some (.field f)
  | .leaf _ (.parameter p) => p.atom?
  | _ => none

theorem Part.atom?_ofAtom (key : Key) (a : Atom) : (Part.ofAtom key a).atom? = some a := by
  cases a <;> rfl

theorem Part.filterMap_atom?_ofAtoms (key : Key) (l : List Atom) :
    (Part.ofAtoms key l).filterMap Part.atom? = l := by
  induction l generalizing key with
  | nil => rfl
  | cons a l ih => rw [ofAtoms, List.filterMap_cons, atom?_ofAtom, ih]

theorem Part.IsFragment.atom?_eq {p : Part} {s : String} (h : p.IsFragment s) :
    p.atom? = some (.text s) := by
  obtain ⟨_, -, rfl⟩ := h
  rfl

namespace Operand

def row : Operand → List Atom
  | .column f => [.field f]
  | .parameter p => p.atom?.toList
  | .binary op left right => .text "(" :: (left.row ++ .text op.spaced :: (right.row ++ [.text ")"]))
  | .nullTest expected tested =>
    .text "(" :: (tested.row ++ [.text (nullTestText expected), .text ")"])

def written (d : Dialect) (column : ColumnRef → String) : Operand → String
  | .column f => column f
  | .parameter p => p.literal d
  | .binary op left right =>
    "(" ++ left.written d column ++ op.spaced ++ right.written d column ++ ")"
  | .nullTest expected tested => "(" ++ tested.written d column ++ nullTestText expected ++ ")"

def columns : Operand → List ColumnRef
  | .column f => [f]
  | .parameter _ => []
  | .binary _ left right => left.columns ++ right.columns
  | .nullTest _ tested => tested.columns

end Operand

theorem Reads.row_eq {ps : List Part} {t : Operand} (h : Reads ps t) :
    ps.filterMap Part.atom? = t.row := by
  induction h with
  | column => rfl
  | parameter _ p => cases hp : p.atom? <;> simp [Part.atom?, Operand.row, hp]
  | binary ha _ hb _ hc ihl ihr =>
    simp only [List.filterMap_cons, List.filterMap_append, List.filterMap_nil, ha.atom?_eq,
      hb.atom?_eq, hc.atom?_eq, ihl, ihr, Operand.row]
  | nullTest ha _ hb hc ih =>
    simp only [List.filterMap_cons, List.filterMap_append, List.filterMap_nil, ha.atom?_eq,
      hb.atom?_eq, hc.atom?_eq, ih, Operand.row]

theorem Scope.atoms_eq (scope : Scope) (e : Expr) :
    (scope.atoms e).value = (Operand.ofExpr scope e).row := by
  rw [← (Reads.atoms scope e 0).row_eq, Part.filterMap_atom?_ofAtoms]

variable {v : View} {d : Dialect} {column : ColumnRef → String}

def atomsText (v : View) (l : List Atom) : String :=
  (renderAtoms v l).value

theorem atomsText_cons (a : Atom) (l : List Atom) :
    atomsText v (a :: l) = (a.render v).value ++ atomsText v l := rfl

theorem toList_atomsText (l : List Atom) :
    (atomsText v l).toList = l.flatMap fun a => (a.render v).value.toList := by
  induction l with
  | nil => rfl
  | cons a l ih => rw [atomsText_cons, String.toList_append, ih, List.flatMap_cons]

theorem atomsText_append (l m : List Atom) :
    atomsText v (l ++ m) = atomsText v l ++ atomsText v m := by
  rw [← String.toList_inj]
  simp only [String.toList_append, toList_atomsText, List.flatMap_append]

theorem atomsText_row (t : Operand) :
    atomsText v t.row = t.written v.dialect fun f => f.render v := by
  have htext : ∀ (s : String) (l : List Atom), atomsText v (.text s :: l) = s ++ atomsText v l :=
    fun s l => rfl
  induction t with
  | column f => exact String.append_empty
  | parameter p =>
    rw [Operand.row, Operand.written, Parameter.atom?, Parameter.literal]
    cases p.source with
    | value | deferred => exact String.append_empty
    | expr => rfl
  | binary op left right ihl ihr =>
    simp only [Operand.row, Operand.written, htext, atomsText_append, ihl, ihr,
      String.append_assoc]
    rfl
  | nullTest expected tested ih =>
    simp only [Operand.row, Operand.written, htext, atomsText_append, ih, String.append_assoc]
    rfl

def Scope.within (scope : Scope) (f : ColumnRef) : ColumnRef :=
  scope.columnRef f.entity f.tableAlias f.field

namespace Operand

/-- The operand with other columns in the places of its own. -/
def mapColumns (g : ColumnRef → ColumnRef) : Operand → Operand
  | .column f => .column (g f)
  | .parameter p => .parameter p
  | .binary op left right => .binary op (left.mapColumns g) (right.mapColumns g)
  | .nullTest expected tested => .nullTest expected (tested.mapColumns g)

theorem written_mapColumns (g : ColumnRef → ColumnRef) (t : Operand) :
    (t.mapColumns g).written d column = t.written d fun f => column (g f) := by
  induction t with
  | column | parameter => rfl
  | binary op left right ihl ihr => simp only [mapColumns, written, ihl, ihr]
  | nullTest expected tested ih => simp only [mapColumns, written, ih]

theorem columns_mapColumns (g : ColumnRef → ColumnRef) (t : Operand) :
    (t.mapColumns g).columns = t.columns.map g := by
  induction t with
  | column | parameter => rfl
  | binary op left right ihl ihr => simp only [mapColumns, columns, ihl, ihr, List.map_append]
  | nullTest expected tested ih => simp only [mapColumns, columns, ih]

theorem verbatim_within (scope : Scope) (e : Expr) :
    verbatim scope e = (verbatim {} e).mapColumns scope.within := by
  induction e with
  | member entity tableAlias field => cases tableAlias <;> cases entity <;> rfl
  | constant | deferred | computed => rfl
  | convert inner ih => exact ih
  | binary op left right ihl ihr => rw [verbatim, ihl, ihr, verbatim, mapColumns]

/-- The scope of an expression only says which tables its columns are under. -/
theorem ofExpr_within (scope : Scope) (e : Expr) :
    ofExpr scope e = (ofExpr {} e).mapColumns scope.within := by
  induction e with
  | member entity tableAlias field => cases tableAlias <;> cases entity <;> rfl
  | constant | deferred | computed => rfl
  | convert inner ih => exact ih
  | binary op left right ihl ihr =>
    simp only [ofExpr]
    split_ifs
    · cases (Expr.binary op left right).evaluate.value with
      | some => rfl
      | none => simp only [mapColumns, verbatim_within scope left, verbatim_within scope right]
    · rw [mapColumns, ← ihl]
    · rw [mapColumns, ← ihr]
    · rw [mapColumns, ← ihl, ← ihr]

theorem contains_written {t : Operand} {f : ColumnRef} (hf : f ∈ t.columns) :
    Text.Contains (t.written d column) (column f) := by
  induction t with
  | column g =>
    rw [List.mem_singleton.1 hf]
    exact .refl _
  | parameter => cases hf
  | binary op left right ihl ihr =>
    rw [written]
    obtain hf | hf := List.mem_append.1 hf
    · refine Text.Contains.trans ?_ (ihl hf)
      exact (Text.contains_append_left _ _).trans ((Text.contains_append_left _ _).trans
        ((Text.contains_append_left _ _).trans (Text.contains_append_right _ _)))
    · refine Text.Contains.trans ?_ (ihr hf)
      exact (Text.contains_append_left _ _).trans (Text.contains_append_right _ _)
  | nullTest expected tested ih =>
    rw [written]
    refine Text.Contains.trans ?_ (ih hf)
    exact (Text.contains_append_left _ _).trans ((Text.contains_append_left _ _).trans
      (Text.contains_append_right _ _))

end Operand

namespace Expr

/-- The columns of an expression from left to right, each under what it names. -/
def members : Expr → List ColumnRef
  | .member entity tableAlias field => [Scope.columnRef {} entity tableAlias field]
  | .convert inner => inner.members
  | .binary _ left right => left.members ++ right.members
  | .constant _ | .deferred _ | .computed .. => []

theorem members_eq_nil {e : Expr} {v : Value} (h : e.evaluate.value = some v) :
    e.members = [] := by
  induction e generalizing v with
  | member => cases h
  | constant | deferred | computed => rfl
  | convert inner ih => exact ih h
  | binary op left right ihl ihr =>
    obtain ⟨a, b, hl, hr, -⟩ := exists_of_evaluate_binary h
    rw [members, ihl hl, ihr hr, List.append_nil]

theorem members_of_isNullConstant {e : Expr} (h : e.isNullConstant = true) : e.members = [] := by
  cases e with
  | constant => rfl
  | member | deferred | binary | convert | computed => cases h

end Expr

namespace Operand

theorem columns_verbatim (e : Expr) : (verbatim {} e).columns = e.members := by
  induction e with
  | member | constant | deferred | computed => rfl
  | convert inner ih => exact ih
  | binary op left right ihl ihr => rw [verbatim, columns, ihl, ihr, Expr.members]

theorem columns_ofExpr (e : Expr) : (ofExpr {} e).columns = e.members := by
  induction e with
  | member | constant | deferred | computed => rfl
  | convert inner ih => exact ih
  | binary op left right ihl ihr =>
    simp only [ofExpr]
    split_ifs with harith hright hleft
    · cases hv : (Expr.binary op left right).evaluate.value with
      | some v => exact (Expr.members_eq_nil hv).symm
      | none => rw [columns, columns_verbatim, columns_verbatim, Expr.members]
    · rw [columns, ihl, Expr.members, Expr.members_of_isNullConstant hright.2, List.append_nil]
    · rw [columns, ihr, Expr.members, Expr.members_of_isNullConstant hleft.2, List.nil_append]
    · rw [columns, ihl, ihr, Expr.members]

end Operand

def Expr.written (d : Dialect) (column : ColumnRef → String) (e : Expr) : String :=
  (Operand.ofExpr {} e).written d column

theorem Scope.atomsText_atoms (scope : Scope) (e : Expr) :
    atomsText v (scope.atoms e).value =
      e.written v.dialect fun f => (scope.within f).render v := by
  rw [scope.atoms_eq, atomsText_row, Operand.ofExpr_within, Operand.written_mapColumns, Expr.written]

theorem Expr.contains_written {e : Expr} {f : ColumnRef} (hf : f ∈ e.members) :
    Text.Contains (e.written d column) (column f) :=
  Operand.contains_written (Operand.columns_ofExpr e ▸ hf)

end SqlComposer
