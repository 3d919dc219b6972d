import SqlComposer.Proofs.Tree.Sequence
import SqlComposer.Proofs.Tree.Unqualified
import Mathlib.Data.Set.Function

/-!
# Statements under other keys

Keys tell parts apart and say nothing else. A statement is written without a look at the names and
the seals of its parts, and what it looks up by a key, the last item of a table definition, it
finds under any other keys that tell the same parts apart.
-/
namespace SqlComposer

/-- The views differ in nothing but identity: in the key of the last item, and in the order in
which aliases were entered. -/
structure View.Twin (v w : View) : Prop where
  dialect : w.dialect = v.dialect
  qualify : w.qualify = v.qualify
  aliases : ∀ entity, w.aliases.find? entity = v.aliases.find? entity
  tags : w.tags = v.tags
  allTags : w.allTags = v.allTags

structure View.Agrees (v w : View) : Prop where
  dialect : w.dialect = v.dialect
  qualify : w.qualify = v.qualify
  aliases : ∀ entity, w.aliases.find? entity = v.aliases.find? entity

theorem View.Twin.agrees {v w : View} (h : v.Twin w) : v.Agrees w :=
  ⟨h.dialect, h.qualify, h.aliases⟩

section

variable {v w : View} (h : v.Agrees w)
include h

theorem ColumnRef.render_agrees (f : ColumnRef) : f.render w = f.render v := by
  have hqualifier : f.qualifier? w = f.qualifier? v := by
    simp only [qualifier?, h.qualify, h.aliases]
  rw [render, render, hqualifier]

theorem Atom.render_agrees (a : Atom) : a.render w = a.render v := by
  cases a with
  | text => rfl
  | field f => exact congrArg pure (f.render_agrees h)
  | value | deferred => rw [render, render, h.dialect]

theorem renderAtoms_agrees (atoms : List Atom) : renderAtoms w atoms = renderAtoms v atoms := by
  induction atoms with
  | nil => rfl
  | cons a atoms ih => rw [renderAtoms, renderAtoms, a.render_agrees h, ih]

theorem Parameter.render_agrees (p : Parameter) : p.render w = p.render v := by
  have hbare : p.bare w = p.bare v := by
    simp only [bare, h.dialect, renderAtoms_agrees h]
  rw [render, render, hbare]

end

namespace Leaf

/-- A text that is made when the statement is written does not look at keys. -/
def IgnoresKeys : Leaf → Prop
  | .late emit => ∀ v w : View, v.Twin w → emit w = emit v
  | _ => True

theorem IgnoresKeys.emit_eq {v w : View} (h : v.Twin w) {content : Leaf}
    (hcontent : content.IgnoresKeys) : ∀ emit, content = .late emit → emit w = emit v := by
  rintro emit rfl
  exact hcontent v w h

theorem render_agrees {v w : View} (h : v.Agrees w) {head head' : Head}
    (htag : head'.tag = head.tag)
    (hkey : itemSeparator w head'.key = itemSeparator v head.key) {content : Leaf}
    (hlate : ∀ emit, content = .late emit → emit w = emit v) :
    content.render w head' = content.render v head := by
  cases content with
  | text s => rw [render, render, htag]
  | late emit => rw [render, render, htag, hlate emit rfl]
  | field f => exact congrArg pure (f.render_agrees h)
  | parameter p => exact p.render_agrees h
  | properties ps => rw [render, render, htag, ps.render_congr h.dialect]
  | column c => rw [render, render, hkey, c.render_congr h.dialect]
  | tableKey s => rw [render, render, hkey]

end Leaf

/-- What a part is known by: its key, its name and its seal. -/
structure Relabeling where
  key : Key → Key := fun key => key
  name : Option String → Option String := fun name => name
  isClosed : Bool → Bool := fun isClosed => isClosed

namespace Relabeling

def head (r : Relabeling) (h : Head) : Head :=
  ⟨r.key h.key, h.tag, r.name h.id⟩

/-- New keys, and neither names nor seals. -/
def unmarked (ρ : Key → Key) : Relabeling :=
  ⟨ρ, fun _ => none, fun _ => false⟩

def andThen (r s : Relabeling) : Relabeling :=
  ⟨s.key ∘ r.key, s.name ∘ r.name, s.isClosed ∘ r.isClosed⟩

end Relabeling

namespace Part

mutual

def relabel (r : Relabeling) : Part → Part
  | .leaf head content => .leaf (r.head head) content
  | .group head shape children isClosed =>
    .group (r.head head) shape (relabelAll r children) (r.isClosed isClosed)

def relabelAll (r : Relabeling) : List Part → List Part
  | [] => []
  | p :: ps => p.relabel r :: relabelAll r ps

end

variable {r : Relabeling}

theorem relabelAll_eq (ps : List Part) : relabelAll r ps = ps.map (relabel r) := by
  induction ps with
  | nil => rfl
  | cons p ps ih => rw [relabelAll, ih, List.map_cons]

@[simp] theorem head_relabel (p : Part) : (p.relabel r).head = r.head p.head := by
  cases p <;> rfl

@[simp] theorem isGroup_relabel (p : Part) : (p.relabel r).isGroup = p.isGroup := by
  cases p <;> rfl

@[simp] theorem tag_relabel (p : Part) : (p.relabel r).tag = p.tag := by
  cases p <;> rfl

@[simp] theorem key_relabel (p : Part) : (p.relabel r).key = r.key p.key :=
  congrArg Head.key p.head_relabel

mutual

theorem flatten_relabel : (p : Part) → (p.relabel r).flatten = p.flatten.map (relabel r)
  | .leaf .. => rfl
  | .group _ _ cs _ => congrArg _ (flattenAll_relabel cs)

theorem flattenAll_relabel : (ps : List Part) →
    flattenAll (relabelAll r ps) = (flattenAll ps).map (relabel r)
  | [] => rfl
  | p :: ps => by
    rw [relabelAll, flattenAll, flatten_relabel p, flattenAll_relabel ps, flattenAll,
      List.map_append]

end

mutual

theorem relabel_relabel (r s : Relabeling) : (p : Part) →
    (p.relabel r).relabel s = p.relabel (r.andThen s)
  | .leaf .. => rfl
  | .group _ _ cs _ => congrArg (fun cs => Part.group _ _ cs _) (relabelAll_relabelAll r s cs)

theorem relabelAll_relabelAll (r s : Relabeling) : (ps : List Part) →
    relabelAll s (relabelAll r ps) = relabelAll (r.andThen s) ps
  | [] => rfl
  | p :: ps => by
    rw [relabelAll, relabelAll, relabelAll, relabel_relabel r s p, relabelAll_relabelAll r s ps]

end

def IgnoresKeys : Part → Prop
  | .leaf _ content => content.IgnoresKeys
  | .group .. => True

def isLate : Part → Bool
  | .leaf _ (.late _) => true
  | _ => false

theorem ignoresKeys_of_not_isLate {p : Part} (hp : p.isLate = false) : p.IgnoresKeys := by
  cases p with
  | group => trivial
  | leaf head content =>
    cases content with
    | late => cases hp
    | _ => trivial

theorem ignoresKeys_relabel {p : Part} : (p.relabel r).IgnoresKeys ↔ p.IgnoresKeys := by
  cases p <;> rfl

/-- The part can be labelled anew: nothing in it looks at keys, and it is the last item by its new
key if it was by its own. -/
structure Relabels (r : Relabeling) (v w : View) (p : Part) : Prop where
  ignoresKeys : p.IgnoresKeys
  itemSeparator : itemSeparator w (r.key p.key) = itemSeparator v p.key

mutual

theorem render_relabel {v w : View} (h : v.Twin w) : (p : Part) →
    (∀ q ∈ p.flatten, q.Relabels r v w) → (p.relabel r).render w = p.render v
  | .leaf head content, hp =>
    have hself := hp _ List.mem_cons_self
    have htag : (r.head head).tag = head.tag := rfl
    congrArg ExceptT.lift (Leaf.render_agrees h.agrees htag hself.itemSeparator
      (Leaf.IgnoresKeys.emit_eq h hself.ignoresKeys))
  | .group head .list children _, hp => by
    have hchildren := renderAll_relabel h children fun q hq => hp q (List.mem_cons_of_mem _ hq)
    rw [relabel, render, render, hchildren]
    rfl
  | .group head (.clause entity tableAlias) children _, hp => by
    have hchildren := renderAll_relabel h children fun q hq => hp q (List.mem_cons_of_mem _ hq)
    rw [relabel, render, render, hchildren]
    rfl

theorem renderAll_relabel {v w : View} (h : v.Twin w) : (ps : List Part) →
    (∀ q ∈ flattenAll ps, q.Relabels r v w) → renderAll w (relabelAll r ps) = renderAll v ps
  | [], _ => rfl
  | p :: ps, hps => by
    have hhead := render_relabel h p fun q hq => hps q (List.mem_append_left _ hq)
    have hrest := renderAll_relabel h ps fun q hq => hps q (List.mem_append_right _ hq)
    rw [relabelAll, renderAll, renderAll, hhead, hrest, isGroup_relabel]

end

end Part

namespace Tree

def relabel (r : Relabeling) (t : Tree) : Tree :=
  { t with parts := Part.relabelAll r t.parts }

def IgnoresKeys (t : Tree) : Prop :=
  ∀ p ∈ t.flatten, p.IgnoresKeys

variable {t : Tree} {r : Relabeling} {aliases : AliasTable}

theorem ignoresKeys_of_none_isLate (ht : t.flatten.any Part.isLate = false) : t.IgnoresKeys :=
  fun p hp => Part.ignoresKeys_of_not_isLate (by simpa using List.any_eq_false.1 ht p hp)

theorem flatten_relabel (t : Tree) : (t.relabel r).flatten = t.flatten.map (Part.relabel r) :=
  Part.flattenAll_relabel t.parts

theorem partsOf_relabel (tag : Tag) :
    partsOf { t.relabel r with aliases } tag = Part.relabelAll r (t.partsOf tag) := by
  simp only [partsOf, relabel, Part.relabelAll_eq, List.filter_map, Function.comp_def,
    Part.tag_relabel]

theorem view_twin (haliases : ∀ entity, aliases.find? entity = t.aliasFor? entity)
    (dialect : Dialect) (qualify : Bool) :
    (t.view dialect qualify).Twin ({ t.relabel r with aliases }.view dialect qualify) where
  dialect := rfl
  qualify := rfl
  aliases := haliases
  tags := by
    simp only [view, relabel, Part.relabelAll_eq, List.map_map, Function.comp_def,
      Part.tag_relabel]
  allTags := by
    rw [view, show flatten { t.relabel r with aliases } = _ from t.flatten_relabel, view]
    simp only [List.map_map, Function.comp_def, Part.tag_relabel]

theorem lastTableItem_relabel (dialect : Dialect) (qualify : Bool) :
    ({ t.relabel r with aliases }.view dialect qualify).lastTableItem =
      (t.view dialect qualify).lastTableItem.map r.key := by
  rw [view, show flatten { t.relabel r with aliases } = _ from t.flatten_relabel, view]
  simp only [List.filter_map, List.getLast?_map, Option.map_map, Function.comp_def,
    Part.tag_relabel, Part.key_relabel]

theorem mem_keys_of_lastTableItem {dialect : Dialect} {qualify : Bool} {k : Key}
    (hk : (t.view dialect qualify).lastTableItem = some k) : k ∈ t.keys := by
  obtain ⟨p, hp, rfl⟩ := Option.map_eq_some_iff.1 hk
  exact List.mem_map_of_mem (List.mem_of_mem_filter (List.mem_of_getLast? hp))

theorem itemSeparator_relabel (hr : Set.InjOn r.key {k | k ∈ t.keys}) {k : Key} (hk : k ∈ t.keys)
    (dialect : Dialect) (qualify : Bool) :
    itemSeparator ({ t.relabel r with aliases }.view dialect qualify) (r.key k) =
      itemSeparator (t.view dialect qualify) k := by
  have hlast : ({ t.relabel r with aliases }.view dialect qualify).lastTableItem = some (r.key k) ↔
      (t.view dialect qualify).lastTableItem = some k := by
    rw [lastTableItem_relabel, Option.map_eq_some_iff]
    constructor
    · rintro ⟨last, hlast, hkey⟩
      rw [hlast, hr (mem_keys_of_lastTableItem hlast) hk hkey]
    · exact fun hlast => ⟨k, hlast, rfl⟩
  simp only [itemSeparator, hlast]

section

variable (ht : t.IgnoresKeys) (hr : Set.InjOn r.key {k | k ∈ t.keys})
  (haliases : ∀ entity, aliases.find? entity = t.aliasFor? entity)
include ht hr

theorem relabels (dialect : Dialect) (qualify : Bool) {p : Part} (hp : p ∈ t.flatten) :
    p.Relabels r (t.view dialect qualify) ({ t.relabel r with aliases }.view dialect qualify) where
  ignoresKeys := ht p hp
  itemSeparator := itemSeparator_relabel hr (List.mem_map_of_mem hp) dialect qualify

include haliases

theorem renderAll_relabel (dialect : Dialect) (qualify : Bool) :
    Part.renderAll ({ t.relabel r with aliases }.view dialect qualify) (t.relabel r).parts =
      Part.renderAll (t.view dialect qualify) t.parts :=
  Part.renderAll_relabel (view_twin haliases dialect qualify) t.parts fun _ hp =>
    relabels ht hr dialect qualify hp

theorem renderAll_partsOf_relabel (dialect : Dialect) (qualify : Bool) (tag : Tag) :
    Part.renderAll ({ t.relabel r with aliases }.view dialect qualify)
        (partsOf { t.relabel r with aliases } tag) =
      Part.renderAll (t.view dialect qualify) (t.partsOf tag) := by
  rw [partsOf_relabel]
  exact Part.renderAll_relabel (view_twin haliases dialect qualify) _ fun _ hq =>
    relabels ht hr dialect qualify (mem_flatten_of_mem_partsOf hq)

end

/-- The trees are the same but for identity: without names and seals, `t'` is `t` with its keys
renamed. -/
structure Renamed (ρ : Key → Key) (t t' : Tree) : Prop where
  parts : Part.relabelAll (.unmarked id) t'.parts = Part.relabelAll (.unmarked ρ) t.parts
  aliases : ∀ entity, t'.aliasFor? entity = t.aliasFor? entity
  shape : t'.shape = t.shape

theorem renamed_relabel (ρ : Key → Key) (t : Tree) : Renamed ρ t (t.relabel { key := ρ }) where
  parts := Part.relabelAll_relabelAll { key := ρ } (.unmarked id) t.parts
  aliases _ := rfl
  shape := rfl

namespace Renamed

variable {ρ : Key → Key} {t' : Tree}

theorem ignoresKeys (h : Renamed ρ t t') (ht : t.IgnoresKeys) : t'.IgnoresKeys := by
  have hflat : t'.flatten.map (Part.relabel (.unmarked id)) =
      t.flatten.map (Part.relabel (.unmarked ρ)) := by
    rw [flatten, flatten, ← Part.flattenAll_relabel, ← Part.flattenAll_relabel, h.parts]
  intro p hp
  obtain ⟨q, hq, hpq⟩ := List.mem_map.1 (hflat ▸ List.mem_map_of_mem hp)
  rw [← Part.ignoresKeys_relabel (r := .unmarked id), ← hpq, Part.ignoresKeys_relabel]
  exact ht q hq

end Renamed

end Tree

namespace Compiler

variable {t t' : Tree} {r : Relabeling}

theorem sql_relabel (c : Compiler) (ht : t.IgnoresKeys) (hr : Set.InjOn r.key {k | k ∈ t.keys})
    {aliases : AliasTable} (haliases : ∀ entity, aliases.find? entity = t.aliasFor? entity) :
    c.sql { t.relabel r with aliases } = c.sql t := by
  have hshape : (t.relabel r).shape = t.shape := rfl
  rw [sql, sql, hshape]
  cases t.shape with
  | statement => simp only [statementSql, Tree.renderAll_relabel ht hr haliases]
  | procedure name =>
    simp only [procedureSql, Tree.renderAll_partsOf_relabel ht hr haliases]

theorem sql_renamed (c : Compiler) {ρ : Key → Key} (hρ : Set.InjOn ρ {k | k ∈ t.keys})
    (ht : t.IgnoresKeys) (h : t.Renamed ρ t') : c.sql t' = c.sql t := by
  have hparts : t'.relabel (.unmarked id) =
      { t.relabel (.unmarked ρ) with aliases := t'.aliases } := by
    rw [Tree.relabel, Tree.relabel, h.parts, h.shape]
  calc c.sql t'
    _ = c.sql (t'.relabel (.unmarked id)) :=
      (c.sql_relabel (h.ignoresKeys ht) (Set.injOn_id _) fun _ => rfl).symm
    _ = c.sql { t.relabel (.unmarked ρ) with aliases := t'.aliases } := by rw [hparts]
    _ = c.sql t := c.sql_relabel ht hρ h.aliases

end Compiler

end SqlComposer
