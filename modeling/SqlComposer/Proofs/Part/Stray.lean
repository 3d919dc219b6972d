import SqlComposer.Compiler
import SqlComposer.Proofs.Outcome
import SqlComposer.Proofs.Tree

/-!
# Lists that cannot be written

A list whose tag opens none is stray. A statement is written unless there is a stray list in it,
however deep, and it fails with the first of them, depth first.
-/
namespace SqlComposer

def Tag.ofLists : List Tag :=
  [.select, .delete, .assignments, .groupBy, .insertFields, .values]

theorem Tag.contains_ofLists (tag : Tag) : ofLists.contains tag = tag.frame?.isSome := by
  cases tag <;> rfl

namespace Part

/-- A list whose tag opens none. -/
def isStray : Part → Bool
  | .group head .list _ _ => !Tag.ofLists.contains head.tag
  | _ => false

def strayFault? (ps : List Part) : Option Fault :=
  (ps.find? isStray).map fun g => .unknownList g.tag

theorem strayFault?_append (ps qs : List Part) :
    strayFault? (ps ++ qs) = (strayFault? ps).or (strayFault? qs) := by
  rw [strayFault?, List.find?_append]
  cases h : ps.find? isStray <;> simp [strayFault?, h]

mutual

theorem fault?_render (v : View) : (p : Part) → (p.render v).fault? = strayFault? p.flatten
  | .leaf .. => rfl
  | .group head .list children isClosed => by
    have hchildren := fault?_renderAll v children
    rw [render, flatten]
    cases hframe : head.tag.frame? with
    | none =>
      have hstray : isStray (.group head .list children isClosed) = true := by
        rw [isStray, Tag.contains_ofLists, hframe]
        rfl
      rw [strayFault?, List.find?_cons_of_pos hstray]
      rfl
    | some frame =>
      have hknown : ¬isStray (.group head .list children isClosed) = true := by
        rw [isStray, Tag.contains_ofLists, hframe]
        exact Bool.false_ne_true
      rw [strayFault?, List.find?_cons_of_neg hknown]
      exact (Rendering.fault?_bind_pure _ _).trans hchildren
  | .group head (.clause entity tableAlias) children isClosed => by
    rw [render, flatten, strayFault?, List.find?_cons_of_neg Bool.false_ne_true]
    exact (Rendering.fault?_bind_pure _ _).trans (fault?_renderAll v children)

theorem fault?_renderAll (v : View) : (ps : List Part) →
    (renderAll v ps).fault? = strayFault? (flattenAll ps)
  | [] => rfl
  | p :: ps => by
    rw [renderAll, flattenAll, strayFault?_append, ← fault?_render v p, ← fault?_renderAll v ps]
    exact Rendering.fault?_bind_bind _ _ _

end

end Part

def Fault.refusesList : Fault → Bool
  | .unknownList _ => true
  | _ => false

/-- A result that satisfies the property, or a fault that refuses no list. -/
inductive Yields {α : Type} (P : α → Prop) : Except Fault α → Prop where
  | ok {a : α} (h : P a) : Yields P (.ok a)
  | error {f : Fault} (h : f.refusesList = false) : Yields P (.error f)

namespace Yields

variable {α β : Type} {P : α → Prop} {Q : β → Prop} {x : Except Fault α}

theorem ne_unknownList (h : Yields P x) (tag : Tag) : x ≠ .error (.unknownList tag) := by
  rintro rfl
  cases h with
  | error hf => cases hf

theorem with_eq (h : Yields P x) : Yields (fun a => x = .ok a) x := by
  cases h with
  | ok => exact .ok rfl
  | error hf => exact .error hf

theorem bind {f : α → Except Fault β} (hx : Yields P x) (hf : ∀ a, P a → Yields Q (f a)) :
    Yields Q (x >>= f) := by
  cases hx with
  | ok ha => exact hf _ ha
  | error he => exact .error he

theorem foldlM {f : β → α → Except Fault β} (hf : ∀ b a, Q b → Yields Q (f b a)) (l : List α) {b : β}
    (hb : Q b) : Yields Q (l.foldlM f b) := by
  induction l generalizing b with
  | nil => exact .ok hb
  | cons a l ih => exact (hf b a hb).bind fun _ => ih

theorem mapM {f : α → Except Fault β} (hf : ∀ a, Yields (fun _ => True) (f a)) (l : List α) :
    Yields (fun _ => True) (l.mapM f) := by
  induction l with
  | nil => exact .ok trivial
  | cons a l ih =>
    rw [List.mapM_cons]
    exact (hf a).bind fun _ _ => ih.bind fun _ _ => .ok trivial

end Yields

theorem Compiler.fault?_compile (c : Compiler) {t : Tree} (ht : t.shape = .statement) :
    (c.compile t).fault? = Part.strayFault? t.flatten := by
  rw [compile, Rendering.fault?_bind_pure, sql, ht]
  exact (Rendering.fault?_bind_pure _ _).trans (Part.fault?_renderAll _ _)

theorem Part.exists_renderAll {ps : List Part} (h : ∀ g ∈ flattenAll ps, ¬g.isStray = true)
    (v : View) : ∃ pieces, (renderAll v ps).outcome = .ok pieces := by
  rw [← Rendering.fault?_eq_none, fault?_renderAll, strayFault?, List.find?_eq_none.2 h]
  rfl

/-- No list is refused in a tree that has no stray one, be it a statement or a procedure call. -/
theorem Compiler.yields_compile (c : Compiler) {t : Tree}
    (h : ∀ g ∈ t.flatten, ¬g.isStray = true) : Yields (fun _ => True) (c.compile t).outcome := by
  have hparts (v : View) (tag : Tag) :
      ∃ pieces, (Part.renderAll v (t.partsOf tag)).outcome = .ok pieces := by
    refine Part.exists_renderAll (fun g hg => h g ?_) v
    rw [Part.flattenAll_eq] at hg
    rw [Tree.flatten, Part.flattenAll_eq]
    obtain ⟨p, hp, hg⟩ := List.mem_flatMap.1 hg
    exact List.mem_flatMap.2 ⟨p, (List.mem_filter.1 hp).1, hg⟩
  have hsql : Yields (fun _ => True) (c.sql t).outcome := by
    rw [sql]
    cases t.shape with
    | statement =>
      obtain ⟨pieces, hpieces⟩ := Part.exists_renderAll h (t.view c.dialect c.qualify)
      simp only [statementSql, Rendering.outcome_bind, hpieces]
      exact .ok trivial
    | procedure name =>
      simp only [procedureSql]
      split_ifs
      · obtain ⟨declarations, hdeclarations⟩ := hparts (t.view c.dialect false) .outputDeclaration
        obtain ⟨parameters, hparameters⟩ := hparts (t.view c.dialect false) .parameter
        obtain ⟨outputs, houtputs⟩ := hparts (t.view c.dialect false) .outputColumn
        simp only [Rendering.outcome_bind, hdeclarations, hparameters, houtputs]
        exact .ok trivial
      · exact .error rfl
  rw [compile, Rendering.outcome_bind]
  exact hsql.bind fun _ _ => .ok trivial

end SqlComposer
