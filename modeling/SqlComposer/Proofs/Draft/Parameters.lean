import SqlComposer.Proofs.Draft.Carried

/-!
# Drafts with other parameters

Where a part goes depends on keys, tags and columns, never on parameters: every operation on a
draft carries over to the draft with its parameters changed.
-/
namespace SqlComposer

variable (g : Parameter → Parameter)

def Leaf.mapParameter : Leaf → Leaf
  | .parameter p => .parameter (g p)
  | content => content

namespace Part

mutual

def mapParameters : Part → Part
  | .leaf h content => .leaf h (content.mapParameter g)
  | .group h shape cs c => .group h shape (mapParametersAll cs) c

def mapParametersAll : List Part → List Part
  | [] => []
  | p :: ps => p.mapParameters :: mapParametersAll ps

end

theorem mapParametersAll_eq (ps : List Part) :
    mapParametersAll g ps = ps.map (mapParameters g) := by
  induction ps with
  | nil => rfl
  | cons p ps ih => rw [mapParametersAll, ih, List.map_cons]

theorem carries_mapParameters : Carries id (mapParameters g) where
  injective := Function.injective_id
  leaf _ content := ⟨content.mapParameter g, rfl⟩
  group h shape cs isClosed :=
    congrArg (fun cs => Part.group h shape cs isClosed) (mapParametersAll_eq g cs)
  field? p := by
    cases p with
    | leaf h content => cases content <;> rfl
    | group => rfl

variable {g}

@[simp] theorem key_mapParameters (p : Part) : (p.mapParameters g).key = p.key :=
  (carries_mapParameters g).key p

@[simp] theorem tag_mapParameters (p : Part) : (p.mapParameters g).tag = p.tag :=
  (carries_mapParameters g).tag p

theorem children_mapParameters (p : Part) :
    (p.mapParameters g).children = p.children.map (mapParameters g) :=
  (carries_mapParameters g).children p

end Part

namespace Tree

variable {g} {anchor : Part → Bool}

def mapParameters (g : Parameter → Parameter) (t : Tree) : Tree :=
  { t with parts := Part.mapParametersAll g t.parts }

theorem mapParameters_eq (t : Tree) : t.mapParameters g = t.carried (Part.mapParameters g) := by
  rw [mapParameters, Part.mapParametersAll_eq]
  rfl

theorem contains_mapParameters (t : Tree) (tag : Tag) :
    (t.mapParameters g).contains tag = t.contains tag := by
  rw [mapParameters_eq, t.contains_carried (Part.carries_mapParameters g)]

theorem partsOf_mapParameters (t : Tree) (tag : Tag) :
    (t.mapParameters g).partsOf tag = (t.partsOf tag).map (Part.mapParameters g) := by
  rw [mapParameters_eq, t.partsOf_carried (Part.carries_mapParameters g)]

theorem add_mapParameters (t : Tree) (p : Part) :
    (t.mapParameters g).add (p.mapParameters g) = (t.add p).mapParameters g := by
  rw [mapParameters_eq, mapParameters_eq, add_carried]

theorem addAheadOf_mapParameters (hanchor : ∀ p, anchor (p.mapParameters g) = anchor p) (t : Tree)
    (p : Part) :
    (t.mapParameters g).addAheadOf (p.mapParameters g) anchor =
      (t.addAheadOf p anchor).mapParameters g := by
  rw [mapParameters_eq, mapParameters_eq, t.addAheadOf_carried hanchor]

theorem addToLastWhere_mapParameters (hanchor : ∀ p, anchor (p.mapParameters g) = anchor p)
    (t : Tree) (p : Part) :
    (t.mapParameters g).addToLastWhere (p.mapParameters g) anchor =
      (t.addToLastWhere p anchor).mapParameters g := by
  rw [mapParameters_eq, mapParameters_eq,
    t.addToLastWhere_carried (Part.carries_mapParameters g) hanchor]

theorem addToLast_mapParameters (t : Tree) (p : Part) (tag : Tag) :
    (t.mapParameters g).addToLast (p.mapParameters g) tag =
      (t.addToLast p tag).mapParameters g := by
  rw [mapParameters_eq, mapParameters_eq, t.addToLast_carried (Part.carries_mapParameters g)]

theorem find?_mapParameters (t : Tree) (key : Key) :
    (t.mapParameters g).find? key = (t.find? key).map (Part.mapParameters g) := by
  rw [mapParameters_eq]
  exact t.find?_carried (Part.carries_mapParameters g) key

theorem update_mapParameters {f f' : Part → Part}
    (hf : ∀ p, f' (p.mapParameters g) = (f p).mapParameters g) (t : Tree) (key : Key) :
    (t.mapParameters g).update key f' = (t.update key f).mapParameters g := by
  rw [mapParameters_eq, mapParameters_eq,
    t.update_carried (Part.carries_mapParameters g) (fun p => (hf p).symm)]
  rfl

theorem view_mapParameters (t : Tree) (dialect : Dialect) (qualify : Bool) :
    (t.mapParameters g).view dialect qualify = t.view dialect qualify := by
  rw [mapParameters_eq]
  simp only [view, t.flatten_carried (Part.carries_mapParameters g), List.filter_map,
    List.getLast?_map, List.map_map, Option.map_map, Function.comp_def, Part.tag_mapParameters,
    Part.key_mapParameters]
  simp only [carried, List.map_map, Function.comp_def, Part.tag_mapParameters]

end Tree

namespace Draft

variable {g} (d : Draft)

def mapParameters (g : Parameter → Parameter) (d : Draft) : Draft :=
  { d with parts := Part.mapParametersAll g d.parts }

theorem mapParameters_eq :
    d.mapParameters g = d.carried (Part.mapParameters g) d.nextKey := by
  rw [mapParameters, Part.mapParametersAll_eq]
  rfl

theorem insertSource_mapParameters {before : Part → Bool}
    (hbefore : ∀ p, before (p.mapParameters g) = before p) (tag : Tag) (entity : String)
    (tableAlias : Option String) :
    (d.mapParameters g).insertSource tag entity tableAlias before =
      (d.insertSource tag entity tableAlias before).mapParameters g := by
  rw [mapParameters_eq, mapParameters_eq]
  exact insertSource_carried (Part.carries_mapParameters g) d hbefore tag entity tableAlias rfl

theorem addField_mapParameters (f : ColumnRef) :
    (d.mapParameters g).addField f = (d.addField f).mapParameters g := by
  rw [mapParameters_eq, mapParameters_eq]
  exact addField_carried (Part.carries_mapParameters g) d f rfl

theorem closeSelect_mapParameters :
    (d.mapParameters g).closeSelect = d.closeSelect.mapParameters g := by
  rw [mapParameters_eq, mapParameters_eq]
  exact closeSelect_carried (Part.carries_mapParameters g) d d.nextKey

theorem supplyFields_mapParameters (fields : List ColumnRef) :
    (d.mapParameters g).supplyFields fields = (d.supplyFields fields).mapParameters g := by
  obtain ⟨n, hn, hsupply⟩ := supplyFields_carried (Part.carries_mapParameters g) d fields
  rw [mapParameters_eq, mapParameters_eq, hn]
  exact hsupply d.nextKey (.same _ n)

end Draft

end SqlComposer
