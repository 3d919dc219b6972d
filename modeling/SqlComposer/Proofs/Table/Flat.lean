import SqlComposer.Proofs.Table.Definition
import SqlComposer.Proofs.Tree.Flat

/-!
# Table statements are flat

All that is asked of a table is one part after the other, and so is the statement that each finisher
makes of it. No list is refused in it, whatever calls come before.
-/
namespace SqlComposer

namespace Table

inductive Request where
  | collect (call : Call)
  | column (name : String) (change : ColumnChange) (type : Option ColumnType)
      (nullable : Option Bool)
  deriving DecidableEq

def Request.apply (q : Table) : Request → Except Fault Table
  | .collect call => call.apply q
  | .column name change type nullable => q.column name change type nullable

inductive Finish where
  | create
  | compile
  | rename (newName : String)
  | drop

def Finish.apply (q : Table) : Finish → Rendering Compiled
  | .create => q.create
  | .compile => q.compile
  | .rename newName => q.rename newName
  | .drop => q.drop

def finished (c : Compiler) (s : Schema) (requests : List Request) (finish : Finish) :
    Rendering Compiled := do
  let q ← (liftM (requests.foldlM Request.apply (.ofSchema c s)) : Rendering Table)
  finish.apply q

end Table

theorem Draft.flat_addText {d : Draft} (h : d.toTree.IsFlat) (tag : Tag) (s : String) :
    (d.addText tag s).toTree.IsFlat :=
  h.add rfl

namespace Table

variable {q : Table} {d : Draft}

def IsFlat (q : Table) : Prop :=
  q.draft.toTree.IsFlat

/-! ## Calls -/

theorem yields_beginAlter (h : q.IsFlat) : Yields IsFlat q.beginAlter := by
  rw [beginAlter]
  split_ifs
  · exact .error rfl
  · exact .ok (Draft.flat_addText h _ _)

theorem yields_alterWith (h : q.IsFlat) (tag : Tag) (ps : Properties) :
    Yields IsFlat (q.alterWith tag ps) :=
  (yields_beginAlter h).bind fun _ hq => .ok (hq.add rfl)

theorem yields_column (h : q.IsFlat) (name : String) (change : ColumnChange)
    (type : Option ColumnType) (nullable : Option Bool) :
    Yields IsFlat (q.column name change type nullable) := by
  rw [column]
  split_ifs
  · simp only
    split
    · exact .ok (h.addAfter rfl _)
    · exact .error rfl
    · exact yields_alterWith h _ _
    · exact yields_alterWith h _ _
    · exact .error rfl
    · exact .error rfl
    · exact (yields_beginAlter h).bind fun _ hq => .ok (Draft.flat_addText hq _ _)
  · exact .error rfl

theorem yields_apply (h : q.IsFlat) (request : Request) : Yields IsFlat (request.apply q) := by
  cases request with
  | collect call =>
    cases call with
    | ignore member => exact .ok (h.add rfl)
    | key member autoIncrement =>
      rw [Request.apply, Call.apply, key]
      split_ifs
      · exact .ok h
      · exact .ok (h.add rfl)
    | compositeKey members =>
      rw [Request.apply, Call.apply, compositeKey]
      split_ifs
      · exact .error rfl
      · exact .ok (h.add rfl)
    | foreignKey member table reference => exact .ok (h.add rfl)
  | column name change type nullable => exact yields_column h name change type nullable

theorem yields_requests (c : Compiler) (s : Schema) (requests : List Request) :
    Yields IsFlat (requests.foldlM Request.apply (.ofSchema c s)) :=
  Yields.foldlM (fun _ request h => yields_apply h request) requests (List.forall_mem_nil _)

/-! ## Columns taken out and put in -/

section

variable {α β : Type} {p : α → Bool} {xs : List α}

theorem swapTake?_append {l r : List α} {a : α} (hl : ∀ b ∈ l, p b = false) (ha : p a = true) :
    ∃ rest, swapTake? p (l ++ a :: r) = some (a, rest) ∧ rest.Perm (l ++ r) := by
  have hindex : (l ++ a :: r).findIdx? p = some l.length := by
    rw [List.findIdx?_append, List.findIdx?_eq_none_iff.2 hl, List.findIdx?_cons, ha]
    simp
  have hget : (l ++ a :: r)[l.length]? = some a := by simp
  rw [swapTake?, hindex]
  simp only [hget]
  rcases List.eq_nil_or_concat r with rfl | ⟨r, last, rfl⟩
  · exact ⟨l, by simp, by simp⟩
  · -- the last element comes to the place of the one that is taken
    have hlast : (l ++ a :: (r ++ [last])).getLast? = some last := by
      rw [← List.cons_append, ← List.append_assoc, List.getLast?_concat]
    have hset : (l ++ a :: (r ++ [last])).set l.length last = (l ++ last :: r) ++ [last] := by simp
    rw [List.concat_eq_append, hlast]
    refine ⟨l ++ last :: r, by simp only [hset, List.dropLast_concat], ?_⟩
    exact (List.perm_append_singleton last r).symm.append_left l

theorem swapTake?_cases (p : α → Bool) (xs : List α) :
    (swapTake? p xs = none ∧ ∀ a ∈ xs, p a = false) ∨
      ∃ a rest, swapTake? p xs = some (a, rest) ∧ p a = true ∧ xs.Perm (a :: rest) := by
  cases hfind : xs.find? p with
  | none =>
    have hnone : ∀ a ∈ xs, p a = false := by simpa using List.find?_eq_none.1 hfind
    refine .inl ⟨?_, hnone⟩
    rw [swapTake?, List.findIdx?_eq_none_iff.2 hnone]
  | some a =>
    obtain ⟨ha, l, r, rfl, hl⟩ := List.find?_eq_some_iff_append.1 hfind
    obtain ⟨rest, htake, hrest⟩ := swapTake?_append (r := r) (by simpa using hl) ha
    exact .inr ⟨a, rest, htake, ha, List.perm_middle.trans (hrest.symm.cons a)⟩

theorem swapTake?_map (f : β → α) (p : α → Bool) (xs : List β) :
    swapTake? p (xs.map f) =
      (swapTake? (fun b => p (f b)) xs).map fun (b, rest) => (f b, rest.map f) := by
  have hindex : (xs.map f).findIdx? p = xs.findIdx? fun b => p (f b) := List.findIdx?_map ..
  rw [swapTake?, swapTake?, hindex]
  cases xs.findIdx? fun b => p (f b) with
  | none => rfl
  | some i =>
    simp only [List.getElem?_map, List.getLast?_map]
    cases xs[i]? with
    | none => rfl
    | some b =>
      cases xs.getLast? with
      | none => rfl
      | some last => simp [List.map_set, List.map_dropLast]

end

def Lifted (state : List Part × Draft) : Prop :=
  (∀ p ∈ state.1, p.isGroup = false) ∧ state.2.toTree.IsFlat

theorem lifted_liftDeclared (h : d.toTree.IsFlat) (s : Schema) : Lifted (liftDeclared s d) := by
  rw [liftDeclared]
  refine List.foldlRecOn (motive := Lifted) _ _ ⟨List.forall_mem_nil _, h⟩ fun state hstate key _ => ?_
  obtain ⟨taken, d⟩ := state
  cases hremove : d.remove? key with
  | none => simpa only [hremove] using hstate
  | some removed =>
    obtain ⟨p, t⟩ := removed
    obtain ⟨hp, ht⟩ := hstate.2.remove hremove
    simp only [hremove]
    exact ⟨List.forall_mem_append.2 ⟨hstate.1, List.forall_mem_singleton.2 hp⟩, ht⟩

theorem flat_placeColumn (h : d.toTree.IsFlat) {p : Part} (hp : p.isGroup = false) :
    (placeColumn d p).toTree.IsFlat := by
  rw [placeColumn]
  split_ifs
  · exact h.addBefore hp _
  · exact h.addAfter hp _

theorem lifted_placeMember {state : List Part × Draft} (h : Lifted state) (q : Table)
    (f : FieldDef) : Lifted (q.placeMember state f) := by
  obtain ⟨declared, d⟩ := state
  obtain ⟨hdeclared, hd⟩ := h
  simp only [placeMember]
  split_ifs
  · exact ⟨hdeclared, hd⟩
  · rcases swapTake?_cases (fun p => p.id? == some f.memberName) declared with
      ⟨htake, -⟩ | ⟨p, rest, htake, -, hperm⟩
    · simp only [htake]
      exact ⟨hdeclared, flat_placeColumn (d := d.spend 1 d.toTree) hd rfl⟩
    · simp only [htake]
      obtain ⟨hp, hrest⟩ := List.forall_mem_cons.1 fun q hq => hdeclared q (hperm.mem_iff.2 hq)
      exact ⟨hrest, flat_placeColumn hd hp⟩

theorem flat_definition (h : q.IsFlat) : q.definition.toTree.IsFlat := by
  rw [definition]
  have hopened : (q.draft.spend 1 (q.draft.addBefore (.text q.draft.nextKey .createTable
      (q.compiler.dialect.createTable q.name)) .plain)).toTree.IsFlat :=
    h.addBefore rfl _
  have hplaced := List.foldlRecOn (motive := Lifted) q.schema.fields.reverse q.placeMember
    (lifted_liftDeclared hopened q.schema) fun state hstate f _ => lifted_placeMember hstate q f
  refine Draft.flat_addText ?_ _ _
  exact List.foldlRecOn (motive := fun d : Draft => d.toTree.IsFlat) _ _ hplaced.2
    fun d hd p hp => hd.addAfter (hplaced.1 p hp) _

/-! ## Finishers -/

theorem yields_finish (h : q.IsFlat) (finish : Finish) :
    Yields (fun _ => True) (finish.apply q).outcome := by
  cases finish with
  | create => exact q.compiler.yields_compile (flat_definition h).not_stray
  | compile =>
    rw [Finish.apply, compile]
    split_ifs
    · exact q.compiler.yields_compile h.not_stray
    · exact .error rfl
  | rename newName =>
    rw [Finish.apply, rename]
    split_ifs
    · exact .error rfl
    · exact q.compiler.yields_compile (h.add rfl).not_stray
  | drop => exact q.compiler.yields_compile (Draft.flat_addText h _ _).not_stray

theorem yields_finished (c : Compiler) (s : Schema) (requests : List Request) (finish : Finish) :
    Yields (fun _ => True) (finished c s requests finish).outcome := by
  rw [finished, Rendering.outcome_bind, Rendering.outcome_liftExcept]
  exact (yields_requests c s requests).bind fun _ hq => yields_finish hq finish

end Table

end SqlComposer
