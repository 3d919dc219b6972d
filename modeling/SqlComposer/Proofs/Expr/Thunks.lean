import SqlComposer.Proofs.Expr.Operand
import SqlComposer.Proofs.Outline.Text
import SqlComposer.Proofs.Value.Memo

/-!
# Deferred values of an expression

Whatever is done with an expression, each of its deferred values is computed at most once. Its parts
keep what was not computed while they were made, so writing them computes the rest.
-/
namespace SqlComposer

namespace Expr

def thunks : Expr → List Deferred
  | .member .. | .constant _ => []
  | .deferred d | .computed _ d => [d]
  | .convert inner => inner.thunks
  | .binary _ left right => left.thunks ++ right.thunks

/-- Without arithmetic and without computations that cannot be looked into. -/
def isTransparent : Expr → Bool
  | .member .. | .constant _ | .deferred _ => true
  | .computed .. => false
  | .convert inner => inner.isTransparent
  | .binary op left right => !op.isArithmetic && left.isTransparent && right.isTransparent

theorem thunks_of_isNullConstant {e : Expr} (h : e.isNullConstant = true) : e.thunks = [] := by
  cases e with
  | constant => rfl
  | member | deferred | binary | convert | computed => cases h

theorem reads_evaluate_binary (op : BinaryOp) (left right : Expr) :
    (Expr.binary op left right).evaluate.reads =
      left.evaluate.reads ++
        if left.evaluate.value.isSome then right.evaluate.reads else [] := by
  rw [evaluate, Reading.reads_bind]
  cases left.evaluate.value with
  | none => rfl
  | some a =>
    rw [Reading.reads_bind]
    cases right.evaluate.value <;> exact congrArg _ (List.append_nil _)

theorem reads_evaluate_subset (e : Expr) : e.evaluate.reads ⊆ e.thunks := by
  induction e with
  | member | constant => exact List.nil_subset _
  | deferred d | computed _ d => exact List.Subset.refl [d]
  | convert inner ih => exact ih
  | binary op left right ihl ihr =>
    rw [reads_evaluate_binary, thunks]
    split_ifs
    · exact List.append_subset.2 ⟨List.subset_append_of_subset_left _ ihl,
        List.subset_append_of_subset_right _ ihr⟩
    · rw [List.append_nil]
      exact List.subset_append_of_subset_left _ ihl

theorem thunks_subset_reads_evaluate {e : Expr} {v : Value} (h : e.evaluate.value = some v) :
    e.thunks ⊆ e.evaluate.reads := by
  induction e generalizing v with
  | member => cases h
  | constant => exact List.nil_subset _
  | deferred d | computed _ d => exact List.Subset.refl [d]
  | convert inner ih => exact ih h
  | binary op left right ihl ihr =>
    obtain ⟨a, b, hl, hr, -⟩ := exists_of_evaluate_binary h
    rw [reads_evaluate_binary, hl, thunks]
    exact List.append_subset.2 ⟨List.subset_append_of_subset_left _ (ihl hl),
      List.subset_append_of_subset_right _ (ihr hr)⟩

theorem mem_reads_evaluate_append (e : Expr) {d : Deferred} {l : List Deferred}
    (hl : d ∈ l ↔ d ∈ e.thunks) :
    d ∈ (e.evaluate.reads ++ if e.evaluate.value.isSome then [] else l) ↔ d ∈ e.thunks := by
  rw [List.mem_append]
  cases hv : e.evaluate.value with
  | none =>
    rw [Option.isSome_none, if_neg Bool.false_ne_true, hl]
    exact or_iff_right_of_imp fun h => e.reads_evaluate_subset h
  | some v =>
    rw [Option.isSome_some, if_pos rfl]
    exact ⟨fun h => e.reads_evaluate_subset (h.resolve_right List.not_mem_nil),
      fun h => .inl (thunks_subset_reads_evaluate hv h)⟩

theorem reads_shown_subset (e : Expr) : e.shown.reads ⊆ e.thunks := by
  induction e with
  | member entity tableAlias => cases tableAlias <;> cases entity <;> exact List.nil_subset _
  | constant | computed => exact List.nil_subset _
  | deferred d => exact List.Subset.refl [d]
  | convert inner ih => exact ih
  | binary op left right ihl ihr =>
    have hreads : (Expr.binary op left right).shown.reads = left.shown.reads ++ right.shown.reads :=
      congrArg _ (List.append_nil _)
    rw [hreads, thunks]
    exact List.append_subset.2 ⟨List.subset_append_of_subset_left _ ihl,
      List.subset_append_of_subset_right _ ihr⟩

end Expr

/-! ### The atoms of an expression -/

def Atom.thunk? : Atom → Option Deferred
  | .deferred d => some d
  | _ => none

namespace Reading

variable {d : Deferred} {x y : Reading (List Atom)} {s : String}

/-- What was read while some atoms were made, and what they still hold. -/
def thunks (x : Reading (List Atom)) : List Deferred :=
  x.reads ++ x.value.filterMap Atom.thunk?

theorem mem_thunks_tested :
    d ∈ (x >>= fun l => pure (.text "(" :: l ++ [Atom.text s, .text ")"])).thunks ↔
      d ∈ x.thunks := by
  have htail : List.filterMap Atom.thunk? [.text s, .text ")"] = [] := rfl
  rw [thunks, value_bind, reads_bind, value_pure, reads_pure, List.append_nil, List.cons_append,
    List.filterMap_cons_none rfl, List.filterMap_append, htail, List.append_nil]
  rfl

theorem mem_thunks_combined :
    d ∈ (x >>= fun l => y >>= fun r =>
        pure (.text "(" :: l ++ .text s :: r ++ [Atom.text ")"])).thunks ↔
      d ∈ x.thunks ∨ d ∈ y.thunks := by
  have htail : List.filterMap Atom.thunk? [.text ")"] = [] := rfl
  rw [thunks, value_bind, reads_bind, value_bind, reads_bind, value_pure, reads_pure,
    List.append_nil, List.cons_append, List.cons_append, List.filterMap_cons_none rfl,
    List.filterMap_append, List.filterMap_append, htail, List.append_nil,
    List.filterMap_cons_none rfl]
  simp only [thunks, List.mem_append]
  tauto

end Reading

namespace Scope

variable {d : Deferred}

theorem mem_thunks_verbatim (scope : Scope) (e : Expr) :
    d ∈ (scope.verbatim e).thunks ↔ d ∈ e.thunks := by
  induction e with
  | member | constant | deferred | computed => rfl
  | convert inner ih => exact ih
  | binary op left right ihl ihr =>
    rw [Expr.thunks, List.mem_append, ← ihl, ← ihr]
    exact Reading.mem_thunks_combined

theorem thunks_literal (scope : Scope) (e : Expr) :
    (scope.literal e).thunks =
      e.evaluate.reads ++
        if e.evaluate.value.isSome then [] else (scope.verbatim e).thunks := by
  rw [Reading.thunks, literal, Reading.reads_bind, Reading.value_bind]
  cases e.evaluate.value with
  | none => exact List.append_assoc ..
  | some => exact List.append_nil _

theorem mem_thunks_literal (scope : Scope) (e : Expr) :
    d ∈ (scope.literal e).thunks ↔ d ∈ e.thunks := by
  rw [thunks_literal, e.mem_reads_evaluate_append (scope.mem_thunks_verbatim e)]

theorem mem_thunks_atoms (scope : Scope) (e : Expr) :
    d ∈ (scope.atoms e).thunks ↔ d ∈ e.thunks := by
  induction e with
  | member | constant | deferred => rfl
  | computed description d' => exact scope.mem_thunks_literal (.computed description d')
  | convert inner ih => exact ih
  | binary op left right ihl ihr =>
    rw [atoms, BinaryOp.keyword?_eq]
    split_ifs with harith
    · exact scope.mem_thunks_literal (.binary op left right)
    · rw [Expr.thunks, List.mem_append]
      simp only [nullTest?_eq]
      split_ifs with hright hleft
      · rw [Expr.thunks_of_isNullConstant hright.2, or_iff_left List.not_mem_nil]
        exact Reading.mem_thunks_tested.trans ihl
      · rw [Expr.thunks_of_isNullConstant hleft.2, or_iff_right List.not_mem_nil]
        exact Reading.mem_thunks_tested.trans ihr
      · rw [← ihl, ← ihr]
        exact Reading.mem_thunks_combined

theorem reads_atoms_of_isTransparent (scope : Scope) {e : Expr} (h : e.isTransparent = true) :
    (scope.atoms e).reads = [] := by
  induction e with
  | member | constant | deferred => rfl
  | computed => cases h
  | convert inner ih => exact ih h
  | binary op left right ihl ihr =>
    rw [Expr.isTransparent, Bool.and_eq_true, Bool.and_eq_true, Bool.not_eq_true'] at h
    obtain ⟨⟨harith, hl⟩, hr⟩ := h
    rw [atoms, BinaryOp.keyword?_eq, if_neg (by simp [harith])]
    simp only [nullTest?_eq]
    split_ifs <;> simp [ihl hl, ihr hr]

end Scope

/-! ### Writing atoms -/

section

variable {v : View}

theorem Atom.reads_render (a : Atom) : (a.render v).reads = a.thunk?.toList := by
  cases a <;> rfl

theorem reads_renderAtoms (l : List Atom) : (renderAtoms v l).reads = l.filterMap Atom.thunk? := by
  induction l with
  | nil => rfl
  | cons a l ih =>
    rw [renderAtoms, Reading.reads_bind, Reading.reads_bind, a.reads_render, ih]
    cases h : a.thunk? <;> simp [h]

theorem Part.reads_render_ofAtom (key : Key) (a : Atom) :
    ((ofAtom key a).render v).run.reads = a.thunk?.toList := by
  cases a <;> rfl

theorem Part.reads_renderAll_ofAtoms (key : Key) (l : List Atom) :
    (renderAll v (ofAtoms key l)).run.reads = l.filterMap Atom.thunk? := by
  induction l generalizing key with
  | nil => rfl
  | cons a l ih =>
    rw [ofAtoms, renderAll,
      Rendering.reads_bind_of_ok (outcome_render_ofAtom key a),
      Rendering.reads_bind_of_ok (outcome_renderAll_ofAtoms (key + 1) l), ih,
      reads_render_ofAtom]
    cases h : a.thunk? with
    | none => simp [h]
    | some => simp [h]

end

namespace Expr

inductive Use where
  | translate (scope : Scope)
  /-- write the parts that a translation gives -/
  | compile (v : View) (scope : Scope) (key : Key)
  | evaluate
  | display
  /-- write a parameter that is bound to the expression -/
  | bind (v : View) (key : Key) (tag : Tag) (name : Option String) (declared : Option ColumnType)

def bound (e : Expr) (key : Key) (tag : Tag) (name : Option String) (declared : Option ColumnType) :
    Part :=
  .parameter key tag { source := .expr e, name, declared }

def Use.after (e : Expr) (m : Memo) : Use → Memo
  | .translate scope => m.after (scope.atoms e)
  | .compile v scope key => m.after (Part.renderAll v (Part.ofAtoms key (scope.atoms e).value)).run
  | .evaluate => m.after e.evaluate
  | .display => m.after e.shown
  | .bind v key tag name declared => m.after ((e.bound key tag name declared).render v).run

/-- What has run when fresh values have been used so, in order. -/
def afterUses (e : Expr) (uses : List Use) : Memo :=
  uses.foldl (Use.after e) .empty

theorem reads_bound {v : View} (e : Expr) (key : Key) (tag : Tag) (name : Option String)
    (declared : Option ColumnType) :
    ((e.bound key tag name declared).render v).run.reads =
      e.evaluate.reads ++ if e.evaluate.value.isSome then [] else (Scope.atoms {} e).thunks := by
  have hreads : ((e.bound key tag name declared).render v).run.reads =
      (Parameter.bare v { source := .expr e, name, declared }).reads := by
    rw [bound, Part.parameter, Part.render, Rendering.reads_lift]
    change (Parameter.render v { source := .expr e, name, declared }).reads = _
    rw [Parameter.render, Reading.reads_bind]
    cases name <;> exact List.append_nil _
  rw [hreads, Parameter.bare, Reading.reads_bind, Parameter.value?]
  cases e.evaluate.value with
  | none =>
    rw [Option.isSome_none, if_neg Bool.false_ne_true, Reading.thunks, ← reads_renderAtoms (v := v)]
    rfl
  | some => rfl

theorem mem_reads_bound {v : View} (e : Expr) (key : Key) (tag : Tag) (name : Option String)
    (declared : Option ColumnType) {d : Deferred} :
    d ∈ ((e.bound key tag name declared).render v).run.reads ↔ d ∈ e.thunks := by
  rw [reads_bound, e.mem_reads_evaluate_append (Scope.mem_thunks_atoms {} e)]

theorem Use.exists_reads (e : Expr) (u : Use) :
    ∃ ds ⊆ e.thunks, ∀ m, Use.after e m u = ds.foldl Memo.read m := by
  cases u with
  | translate scope =>
    refine ⟨(scope.atoms e).reads, fun d hd => ?_, fun _ => rfl⟩
    exact (scope.mem_thunks_atoms e).1 (List.mem_append_left _ hd)
  | compile v scope key =>
    refine ⟨_, fun d hd => ?_, fun _ => rfl⟩
    rw [Part.reads_renderAll_ofAtoms] at hd
    exact (scope.mem_thunks_atoms e).1 (List.mem_append_right _ hd)
  | evaluate => exact ⟨e.evaluate.reads, e.reads_evaluate_subset, fun _ => rfl⟩
  | display => exact ⟨e.shown.reads, e.reads_shown_subset, fun _ => rfl⟩
  | bind v key tag name declared =>
    exact ⟨_, fun d hd => (e.mem_reads_bound key tag name declared).1 hd, fun _ => rfl⟩

theorem ran_afterUses (e : Expr) (uses : List Use) :
    ∃ ran ⊆ e.thunks, (e.afterUses uses).Ran ran := by
  have hrun : ∀ {m : Memo} {ran : List Deferred}, ran ⊆ e.thunks → m.Ran ran →
      ∃ ran' ⊆ e.thunks, (uses.foldl (Use.after e) m).Ran ran' := by
    induction uses with
    | nil => exact fun hran h => ⟨_, hran, h⟩
    | cons u uses ih =>
      intro m ran hran h
      obtain ⟨ds, hds, hafter⟩ := u.exists_reads e
      obtain ⟨ran', hran', hread⟩ := h.foldl_read ds
      rw [List.foldl_cons, hafter]
      exact ih (List.Subset.trans hran' (List.append_subset.2 ⟨hran, hds⟩)) hread
  exact hrun (List.nil_subset _) Memo.ran_empty

theorem atMostOnce_afterUses (e : Expr) (uses : List Use) :
    (e.afterUses uses).AtMostOnce e.thunks := by
  obtain ⟨ran, hran, h⟩ := e.ran_afterUses uses
  exact h.atMostOnce hran

theorem exactlyOnce_compile (e : Expr) (scope : Scope) (v : View) (key : Key) :
    (e.afterUses [.translate scope, .compile v scope key]).ExactlyOnce e.thunks := by
  refine (e.atMostOnce_afterUses _).exactlyOnce fun d hd => ?_
  have hd := (scope.mem_thunks_atoms e).2 hd
  change d.cell ∈ (List.foldl Memo.read (List.foldl Memo.read .empty (scope.atoms e).reads)
    (Part.renderAll v (Part.ofAtoms key (scope.atoms e).value)).run.reads).evaluated
  rw [Part.reads_renderAll_ofAtoms, ← List.foldl_append, Memo.mem_evaluated_foldl_read]
  exact .inr (List.mem_map_of_mem hd)

theorem exactlyOnce_bind (e : Expr) (v : View) (key : Key) (tag : Tag) (name : Option String)
    (declared : Option ColumnType) :
    (e.afterUses [.bind v key tag name declared]).ExactlyOnce e.thunks := by
  refine (e.atMostOnce_afterUses _).exactlyOnce fun d hd => ?_
  change d.cell ∈ (List.foldl Memo.read .empty
    ((e.bound key tag name declared).render v).run.reads).evaluated
  rw [Memo.mem_evaluated_foldl_read]
  exact .inr (List.mem_map_of_mem ((e.mem_reads_bound key tag name declared).2 hd))

/-- However often an expression is translated, compiled, evaluated and shown, its deferred values
are computed at most once. To translate and compile it, or to write a parameter that is bound to it,
computes all of them, and to translate it alone none, unless it has arithmetic or computations. -/
theorem thunks_run_once (e : Expr) (v : View) (scope : Scope) (key : Key) (tag : Tag)
    (name : Option String) (declared : Option ColumnType) :
    (∀ uses, (e.afterUses uses).AtMostOnce e.thunks) ∧
      (e.afterUses [.translate scope, .compile v scope key]).ExactlyOnce e.thunks ∧
      (e.isTransparent = true → e.afterUses [.translate scope] = .empty) ∧
      (e.afterUses [.bind v key tag name declared]).ExactlyOnce e.thunks := by
  refine ⟨e.atMostOnce_afterUses, e.exactlyOnce_compile scope v key, fun h => ?_,
    e.exactlyOnce_bind v key tag name declared⟩
  change List.foldl Memo.read .empty (scope.atoms e).reads = .empty
  rw [scope.reads_atoms_of_isTransparent h]
  rfl

theorem thunks_run_once_shared :
    let rate : Deferred := ⟨0, 0, .int 3⟩
    let limit : Deferred := ⟨1, 1, .int 9⟩
    let e : Expr := .binary .less (.binary .multiply (.computed "rate" rate) (col "Price"))
      (.binary .add (.deferred limit) (.deferred rate))
    let test : Expr := .binary .equal (col "Price") (.deferred limit)
    let v : View := ⟨.sqlite, true, [], [], [], none⟩
    let m := e.afterUses [.display, .translate {}, .translate {}, .compile v {} 4, .evaluate]
    m.callCount 0 = 1 ∧ m.isEvaluated limit = true ∧ m.callCount 1 = 1 ∧
      test.isTransparent = true ∧ (test.afterUses [.translate {}]).callCount 1 = 0 := by
  intro rate limit e test v m
  have hm : m.AtMostOnce e.thunks := (e.thunks_run_once v {} 4 .plain none none).1 _
  have htest : test.afterUses [.translate {}] = .empty :=
    (test.thunks_run_once v {} 4 .plain none none).2.2.1 rfl
  refine ⟨?_, by decide, ?_, rfl, congrArg (Memo.callCount · 1) htest⟩
  · exact (hm.callCount rate (.head _) (by decide)).trans (by decide)
  · exact (hm.callCount limit (.tail _ (.head _)) (by decide)).trans (by decide)

end Expr

end SqlComposer
