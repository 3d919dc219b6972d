import SqlComposer.Compiler
import SqlComposer.Proofs.Expr.Unqualified
import SqlComposer.Proofs.Outcome
import SqlComposer.Proofs.Tree

/-!
# Statements without tables

Where columns are not qualified, a statement says what it says when its columns have been taken
away from their tables, so neither the alias table nor the table of a column leaves a trace in it.
-/
namespace SqlComposer

namespace Parameter

def unqualified (p : Parameter) : Parameter :=
  match p.source with
  | .expr e => { p with source := .expr e.unqualified }
  | .value _ | .deferred _ => p

theorem bare_unqualified {v w : View} (hv : v.qualify = false) (h : v.Alike w) (p : Parameter) :
    p.unqualified.bare w = p.bare v := by
  obtain ⟨source, name, declared⟩ := p
  cases source with
  | value | deferred => simp only [unqualified, bare, h.dialect]
  | expr e =>
    have hatoms : (do renderAtoms w (← Scope.atoms {} e.unqualified)) =
        (do renderAtoms v (← Scope.atoms {} e)) := by
      rw [Scope.atoms_unqualified {}]
      have hrow := renderAtoms_unqualified hv h (Scope.atoms {} e).value
      exact congrArg (fun x : Reading String =>
        (⟨x.value, (Scope.atoms {} e).reads ++ x.reads⟩ : Reading String)) hrow
    simp only [unqualified, bare, value?, e.evaluate_unqualified, hatoms, h.dialect]

theorem name_unqualified (p : Parameter) : p.unqualified.name = p.name := by
  rw [unqualified]
  cases p.source <;> rfl

theorem render_unqualified {v w : View} (hv : v.qualify = false) (h : v.Alike w) (p : Parameter) :
    p.unqualified.render w = p.render v := by
  rw [render, render, p.bare_unqualified hv h, p.name_unqualified]

end Parameter

theorem Properties.render_congr {v w : View} (h : w.dialect = v.dialect) (tag : Tag)
    (ps : Properties) : ps.render w tag = ps.render v tag := by
  unfold Properties.render
  rw [h]

theorem ColumnDecl.render_congr {v w : View} (h : w.dialect = v.dialect) (c : ColumnDecl) :
    c.render w = c.render v := by
  rw [render, render, h]

theorem itemSeparator_congr {v w : View} (h : w.lastTableItem = v.lastTableItem) (key : Key) :
    itemSeparator w key = itemSeparator v key := by
  rw [itemSeparator, itemSeparator, h]

namespace Leaf

def unqualified : Leaf → Leaf
  | .field f => .field f.unqualified
  | .parameter p => .parameter p.unqualified
  | content => content

/-- A text that is made when the statement is written does not look at its tables. -/
def IgnoresTables : Leaf → Prop
  | .late emit => ∀ v w : View, v.Alike w → emit w = emit v
  | _ => True

theorem render_unqualified {v w : View} (hv : v.qualify = false) (h : v.Alike w) (head : Head)
    {content : Leaf} (hcontent : content.IgnoresTables) :
    content.unqualified.render w head = content.render v head := by
  cases content with
  | text => rfl
  | late emit => exact congrArg (fun s => pure (taggedText head.tag s)) (hcontent v w h)
  | field f => exact congrArg pure (f.render_unqualified hv w)
  | parameter p => exact p.render_unqualified hv h
  | properties ps => exact congrArg pure (ps.render_congr h.dialect head.tag)
  | column c =>
    simp only [unqualified, render, c.render_congr h.dialect, itemSeparator_congr h.lastTableItem]
  | tableKey => simp only [unqualified, render, itemSeparator_congr h.lastTableItem]

end Leaf

namespace Part

mutual

def unqualified : Part → Part
  | .leaf head content => .leaf head content.unqualified
  | .group head shape children isClosed => .group head shape (unqualifiedAll children) isClosed

def unqualifiedAll : List Part → List Part
  | [] => []
  | p :: ps => p.unqualified :: unqualifiedAll ps

end

theorem unqualifiedAll_eq (ps : List Part) : unqualifiedAll ps = ps.map unqualified := by
  induction ps with
  | nil => rfl
  | cons p ps ih => rw [unqualifiedAll, ih, List.map_cons]

@[simp] theorem head_unqualified (p : Part) : p.unqualified.head = p.head := by
  cases p <;> rfl

@[simp] theorem isGroup_unqualified (p : Part) : p.unqualified.isGroup = p.isGroup := by
  cases p <;> rfl

theorem tag_unqualified (p : Part) : p.unqualified.tag = p.tag :=
  congrArg Head.tag p.head_unqualified

theorem key_unqualified (p : Part) : p.unqualified.key = p.key :=
  congrArg Head.key p.head_unqualified

mutual

theorem flatten_unqualified : (p : Part) → p.unqualified.flatten = p.flatten.map unqualified
  | .leaf .. => rfl
  | .group _ _ cs _ => congrArg _ (flattenAll_unqualified cs)

theorem flattenAll_unqualified : (ps : List Part) →
    flattenAll (unqualifiedAll ps) = (flattenAll ps).map unqualified
  | [] => rfl
  | p :: ps => by
    rw [unqualifiedAll, flattenAll, flatten_unqualified p, flattenAll_unqualified ps, flattenAll,
      List.map_append]

end

def IgnoresTables : Part → Prop
  | .leaf _ content => content.IgnoresTables
  | .group .. => True

mutual

/-- Where columns are not qualified, a part is written as it is without tables, wherever that is. -/
theorem render_unqualified {v w : View} (hv : v.qualify = false) (h : v.Alike w) : (p : Part) →
    (∀ q ∈ p.flatten, q.IgnoresTables) → p.unqualified.render w = p.render v
  | .leaf head content, hp =>
    congrArg ExceptT.lift (Leaf.render_unqualified hv h head (hp _ List.mem_cons_self))
  | .group head .list children _, hp => by
    have hchildren := renderAll_unqualified hv h children fun q hq => hp q (List.mem_cons_of_mem _ hq)
    rw [unqualified, render, render, hchildren]
  | .group head (.clause entity tableAlias) children _, hp => by
    have hchildren := renderAll_unqualified hv h children fun q hq => hp q (List.mem_cons_of_mem _ hq)
    rw [unqualified, render, render, hchildren]

theorem renderAll_unqualified {v w : View} (hv : v.qualify = false) (h : v.Alike w) :
    (ps : List Part) → (∀ q ∈ flattenAll ps, q.IgnoresTables) →
    renderAll w (unqualifiedAll ps) = renderAll v ps
  | [], _ => rfl
  | p :: ps, hps => by
    have hhead := render_unqualified hv h p fun q hq => hps q (List.mem_append_left _ hq)
    have hrest := renderAll_unqualified hv h ps fun q hq => hps q (List.mem_append_right _ hq)
    rw [unqualifiedAll, renderAll, renderAll, hhead, hrest, isGroup_unqualified]

end

end Part

namespace Tree

def unqualified (t : Tree) : Tree :=
  { t with parts := Part.unqualifiedAll t.parts }

def IgnoresTables (t : Tree) : Prop :=
  ∀ p ∈ t.flatten, p.IgnoresTables

variable {t : Tree}

theorem flatten_unqualified (t : Tree) : t.unqualified.flatten = t.flatten.map Part.unqualified :=
  Part.flattenAll_unqualified t.parts

variable (ht : t.IgnoresTables) (dialect : Dialect) (qualify : Bool) (aliases : AliasTable)

theorem view_alike (t : Tree) :
    (t.view dialect false).Alike ({ t.unqualified with aliases }.view dialect qualify) where
  dialect := rfl
  tags := by
    simp only [view, unqualified, Part.unqualifiedAll_eq, List.map_map, Function.comp_def,
      Part.tag_unqualified]
  allTags := by
    rw [view, show flatten { t.unqualified with aliases } = _ from t.flatten_unqualified, view]
    simp only [List.map_map, Function.comp_def, Part.tag_unqualified]
  lastTableItem := by
    rw [view, show flatten { t.unqualified with aliases } = _ from t.flatten_unqualified, view]
    simp only [List.filter_map, List.getLast?_map, Option.map_map, Function.comp_def,
      Part.tag_unqualified, Part.key_unqualified]

theorem mem_flatten_of_mem_partsOf {tag : Tag} {p : Part}
    (hp : p ∈ Part.flattenAll (t.partsOf tag)) : p ∈ t.flatten := by
  rw [Part.flattenAll_eq] at hp
  obtain ⟨top, htop, hp⟩ := List.mem_flatMap.1 hp
  rw [flatten, Part.flattenAll_eq]
  exact List.mem_flatMap.2 ⟨top, List.mem_of_mem_filter htop, hp⟩

theorem partsOf_unqualified (t : Tree) (tag : Tag) :
    partsOf { t.unqualified with aliases } tag = Part.unqualifiedAll (t.partsOf tag) := by
  simp only [partsOf, unqualified, Part.unqualifiedAll_eq, List.filter_map, Function.comp_def,
    Part.tag_unqualified]

include ht

theorem renderAll_unqualified :
    Part.renderAll ({ t.unqualified with aliases }.view dialect qualify) t.unqualified.parts =
      Part.renderAll (t.view dialect false) t.parts :=
  Part.renderAll_unqualified rfl (t.view_alike dialect qualify aliases) t.parts ht

theorem renderAll_partsOf_unqualified (tag : Tag) :
    Part.renderAll ({ t.unqualified with aliases }.view dialect false)
        (partsOf { t.unqualified with aliases } tag) =
      Part.renderAll (t.view dialect false) (t.partsOf tag) := by
  rw [partsOf_unqualified]
  exact Part.renderAll_unqualified rfl (t.view_alike dialect false aliases) _ fun q hq =>
    ht q (mem_flatten_of_mem_partsOf hq)

end Tree

namespace Compiler

variable {t t' : Tree} (dialect : Dialect)

theorem sql_unqualified (ht : t.IgnoresTables) (qualify : Bool) (aliases : AliasTable) :
    sql ⟨dialect, qualify⟩ { t.unqualified with aliases } = sql ⟨dialect, false⟩ t := by
  have hshape : t.unqualified.shape = t.shape := rfl
  rw [sql, sql, hshape]
  cases t.shape with
  | statement => simp only [statementSql, Tree.renderAll_unqualified ht]
  | procedure name => simp only [procedureSql, Tree.renderAll_partsOf_unqualified ht]

theorem sql_procedure {name : String} (hshape : t.shape = .procedure name) (qualify : Bool) :
    sql ⟨dialect, qualify⟩ t = sql ⟨dialect, false⟩ t := by
  rw [sql, sql, hshape]
  rfl

theorem sql_congr (ht : t.IgnoresTables) (ht' : t'.IgnoresTables) (hshape : t'.shape = t.shape)
    (hparts : t'.unqualified.parts = t.unqualified.parts) :
    sql ⟨dialect, false⟩ t' = sql ⟨dialect, false⟩ t := by
  have htree : (⟨t'.unqualified.parts, t.aliases, t'.shape⟩ : Tree) =
      ⟨t.unqualified.parts, t.aliases, t.shape⟩ := by rw [hparts, hshape]
  calc sql ⟨dialect, false⟩ t'
    _ = sql ⟨dialect, true⟩ ⟨t'.unqualified.parts, t.aliases, t'.shape⟩ :=
      (sql_unqualified dialect ht' true t.aliases).symm
    _ = sql ⟨dialect, true⟩ ⟨t.unqualified.parts, t.aliases, t.shape⟩ := by rw [htree]
    _ = sql ⟨dialect, false⟩ t := sql_unqualified dialect ht true t.aliases

theorem outcome_compile (c : Compiler) (t : Tree) :
    (c.compile t).outcome.map Compiled.sql = (c.sql t).outcome := by
  rw [compile, Rendering.outcome_bind]
  cases (c.sql t).outcome <;> rfl

end Compiler

end SqlComposer
