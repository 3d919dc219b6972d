import SqlComposer.Proofs.Draft.Supplied

/-!
# Closed groups

Whatever is put in beside a closed group, around it or below its children, the group stays closed
and keeps its children. Only taking parts out can take the group or a child of it away.
-/
namespace SqlComposer

namespace Part

variable {p q : Part} {ps qs rs : List Part}

/-- The closed group `g` as it is found later: still closed, with the same children in the same
order. What is below the children may have changed. -/
structure Remains (g g' : Part) : Prop where
  key_eq : g'.key = g.key
  isClosed : g'.isClosed = true
  children_eq : g'.children.map bare = g.children.map bare

/-- Every group that is closed in the one forest remains in the other. -/
def KeepsClosed (ps qs : List Part) : Prop :=
  ∀ g ∈ flattenAll ps, g.isClosed = true → ∃ g' ∈ flattenAll qs, g.Remains g'

theorem Remains.trans {g g' g'' : Part} (h : g.Remains g') (h' : g'.Remains g'') :
    g.Remains g'' where
  key_eq := h'.key_eq.trans h.key_eq
  isClosed := h'.isClosed
  children_eq := h'.children_eq.trans h.children_eq

namespace KeepsClosed

theorem of_subset (h : flattenAll ps ⊆ flattenAll qs) : KeepsClosed ps qs :=
  fun g hg hclosed => ⟨g, h hg, rfl, hclosed, rfl⟩

theorem refl (ps : List Part) : KeepsClosed ps ps :=
  of_subset (List.Subset.refl _)

theorem trans (h : KeepsClosed ps qs) (h' : KeepsClosed qs rs) : KeepsClosed ps rs := by
  intro g hg hclosed
  obtain ⟨g', hg', hremains⟩ := h g hg hclosed
  obtain ⟨g'', hg'', hremains'⟩ := h' g' hg' hremains.isClosed
  exact ⟨g'', hg'', hremains.trans hremains'⟩

theorem cons (h : KeepsClosed [p] [q]) (h' : KeepsClosed ps qs) :
    KeepsClosed (p :: ps) (q :: qs) := by
  intro g hg hclosed
  rw [flattenAll, List.mem_append] at hg
  obtain hg | hg := hg
  · obtain ⟨g', hg', hremains⟩ := h g (by simpa [flattenAll] using hg) hclosed
    exact ⟨g', List.mem_append_left _ (by simpa [flattenAll] using hg'), hremains⟩
  · obtain ⟨g', hg', hremains⟩ := h' g hg hclosed
    exact ⟨g', List.mem_append_right _ hg', hremains⟩

theorem group {h : Head} {shape : Shape} {cs cs' : List Part} {c c' : Bool}
    (hchildren : KeepsClosed cs cs')
    (hclosed : c = true → c' = true ∧ cs'.map bare = cs.map bare) :
    KeepsClosed [.group h shape cs c] [.group h shape cs' c'] := by
  intro g hg hg'
  simp only [flattenAll, flatten, List.append_nil, List.mem_cons] at hg ⊢
  obtain rfl | hg := hg
  · obtain ⟨hc, hsame⟩ := hclosed hg'
    exact ⟨_, .inl rfl, rfl, hc, hsame⟩
  · obtain ⟨g', hmem, hremains⟩ := hchildren g hg hg'
    exact ⟨g', .inr hmem, hremains⟩

theorem insert {l r : List Part} (hps : ps = l ++ r) (hqs : qs = l ++ p :: r) :
    KeepsClosed ps qs := by
  subst hps hqs
  refine of_subset fun g hg => ?_
  simp only [flattenAll_eq, List.flatMap_append, List.flatMap_cons, List.mem_append] at hg ⊢
  exact hg.imp_right .inr

theorem map {f : Part → Part} (hf : ∀ p, KeepsClosed [p] [f p]) (ps : List Part) :
    KeepsClosed ps (ps.map f) := by
  induction ps with
  | nil => exact refl []
  | cons p ps ih => exact (hf p).cons ih

end KeepsClosed

/-- A change of one part that no closed group notices. -/
structure Harmless (f : Part → Part) : Prop where
  keepsClosed : ∀ p, KeepsClosed [p] [f p]
  bare_eq : ∀ p, (f p).bare = p.bare

theorem harmless_close : Harmless close where
  keepsClosed p := by
    cases p with
    | leaf => exact .refl _
    | group => exact .group (.refl _) fun _ => ⟨rfl, rfl⟩
  bare_eq p := by cases p <;> rfl

theorem harmless_push (child : Part) : Harmless (push child) where
  keepsClosed p := by
    cases p with
    | leaf => exact .refl _
    | group h shape cs isClosed =>
      cases isClosed with
      | true => exact .refl _
      | false => exact .group (.insert (List.append_nil cs).symm rfl) nofun
  bare_eq p := by
    cases p with
    | leaf => rfl
    | group h shape cs isClosed => cases isClosed <;> rfl

theorem harmless_foldl_push (new : List Part) :
    Harmless fun g => new.foldl (fun g child => push child g) g := by
  induction new with
  | nil => exact ⟨fun p => .refl [p], fun _ => rfl⟩
  | cons child new ih =>
    have hchild := harmless_push child
    exact ⟨fun p => (hchild.keepsClosed p).trans (ih.keepsClosed _),
      fun p => (ih.bare_eq _).trans (hchild.bare_eq p)⟩

mutual

theorem harmless_update {f : Part → Part} (hf : Harmless f) (k : Key) : (p : Part) →
    KeepsClosed [p] [p.update k f] ∧ (p.update k f).bare = p.bare
  | .leaf h content => by
    rw [update]
    split_ifs
    · exact ⟨hf.keepsClosed _, hf.bare_eq _⟩
    · exact ⟨.refl _, rfl⟩
  | .group h shape cs c => by
    rw [update]
    split_ifs
    · exact ⟨hf.keepsClosed _, hf.bare_eq _⟩
    -- the change is below the group, whose own children stay what they are
    · obtain ⟨hkeeps, hbare⟩ := harmless_updateAll hf k cs
      exact ⟨.group hkeeps fun hc => ⟨hc, hbare⟩, rfl⟩

theorem harmless_updateAll {f : Part → Part} (hf : Harmless f) (k : Key) : (ps : List Part) →
    KeepsClosed ps (updateAll k f ps) ∧ (updateAll k f ps).map bare = ps.map bare
  | [] => ⟨.refl [], rfl⟩
  | p :: ps => by
    obtain ⟨hhead, hbare⟩ := harmless_update hf k p
    obtain ⟨hrest, hbares⟩ := harmless_updateAll hf k ps
    exact ⟨hhead.cons hrest, congrArg₂ List.cons hbare hbares⟩

end

end Part

open SqlComposer.Part (KeepsClosed)

namespace Draft

variable {fields : List ColumnRef} {first last : Key} {p p' : Part} {ps ps' : List Part}

theorem Supplies.keepsClosed (h : Supplies fields first last p p') : KeepsClosed [p] [p'] := by
  cases h with
  | other => exact .refl _
  | @list _ _ children key added =>
    refine .group (fun g hg hclosed => ⟨g, ?_, rfl, hclosed, rfl⟩) nofun
    rw [Part.flattenAll_append]
    refine List.mem_append_left _ ?_
    rw [Part.flattenAll_eq] at hg ⊢
    obtain ⟨child, hchild, hbelow⟩ := List.mem_flatMap.1 hg
    refine List.mem_flatMap.2 ⟨child, List.mem_filter.2 ⟨hchild, ?_⟩, hbelow⟩
    -- only columns go from the list, and these have nothing below them
    cases child with
    | group => rfl
    | leaf =>
      obtain rfl := List.mem_singleton.1 hbelow
      cases hclosed

theorem SuppliesAll.keepsClosed (h : SuppliesAll fields first last ps ps') :
    KeepsClosed ps ps' := by
  induction h with
  | nil => exact .refl []
  | cons hp _ ih => exact hp.keepsClosed.cons ih

end Draft

namespace Tree

variable (t : Tree)

theorem keepsClosed_addAheadOf (p : Part) (anchor : Part → Bool) :
    KeepsClosed t.parts (t.addAheadOf p anchor).parts := by
  obtain ⟨l, r, hparts, hins⟩ := exists_insertAhead anchor t.parts
  exact .insert hparts (hins p)

theorem keepsClosed_add (p : Part) : KeepsClosed t.parts (t.add p).parts :=
  .insert (List.append_nil _).symm rfl

theorem keepsClosed_addToLastWhere (p : Part) (anchor : Part → Bool) :
    KeepsClosed t.parts (t.addToLastWhere p anchor).parts := by
  rw [addToLastWhere]
  split
  · exact (Part.harmless_updateAll (Part.harmless_push p) _ t.parts).1
  · exact t.keepsClosed_add p

end Tree

namespace Edit

variable {d : Draft}

def isRemoval : Edit → Bool
  | remove _ => true
  | _ => false

theorem keepsClosed_apply (hd : Distinct d) {edit : Edit} (hedit : edit.isRemoval = false) :
    KeepsClosed d.parts (edit.apply d).parts := by
  cases edit with
  | remove => cases hedit
  | makeParts => exact .refl _
  | add p => exact d.keepsClosed_add p
  | addText | addList | addExpression => exact d.keepsClosed_add _
  | addBefore p tag =>
    simp only [apply, Draft.spend, Tree.addBefore]
    split_ifs
    · exact d.keepsClosed_addAheadOf p _
    · exact .insert (l := []) rfl rfl
  | addAfter p tag =>
    obtain ⟨l, r, hparts, hins⟩ := exists_insertBehind (fun q : Part => q.tag == tag) d.parts
    exact .insert hparts (hins p)
  | addAheadOf p anchor => exact d.keepsClosed_addAheadOf p anchor
  | addToLast p tag => exact d.keepsClosed_addToLastWhere p _
  | addToLastWhere p anchor => exact d.keepsClosed_addToLastWhere p anchor
  | nestExpression scope e tag anchor => exact d.keepsClosed_addToLastWhere _ anchor
  | addField f => exact d.keepsClosed_addToLastWhere _ _
  | push group p => exact (Part.harmless_updateAll (Part.harmless_push p) group d.parts).1
  | close group => exact (Part.harmless_updateAll Part.harmless_close group d.parts).1
  | insertSource tag entity tableAlias before =>
    cases tableAlias with
    | none => exact d.keepsClosed_addAheadOf _ before
    | some a => exact (d.setAlias entity a).keepsClosed_addAheadOf _ before
  | addRestriction scope e before =>
    simp only [apply, Draft.addRestriction]
    split_ifs
    · exact d.keepsClosed_addToLastWhere _ _
    · exact d.keepsClosed_addAheadOf _ before
  | extendClause group scope e =>
    simp only [apply, extendClause_value]
    split_ifs
    · exact (Part.harmless_updateAll (Part.harmless_foldl_push _) group d.parts).1
    · exact .refl _
  | supplyFields fields => exact (Edit.suppliesAll_supplyFields hd fields).keepsClosed
  | closeSelect =>
    refine .map (fun p => ?_) d.parts
    split_ifs
    · exact Part.harmless_close.keepsClosed p
    · exact .refl [p]

theorem keepsClosed_run (hd : Distinct d) {edits : List Edit} (hfit : FitAll d edits)
    (hedits : ∀ edit ∈ edits, edit.isRemoval = false) :
    KeepsClosed d.parts (run d edits).parts := by
  induction edits generalizing d with
  | nil => exact .refl _
  | cons edit edits ih =>
    obtain ⟨hedit, hrest⟩ := List.forall_mem_cons.1 hedits
    exact (keepsClosed_apply hd hedit).trans (ih (distinct_apply hd hfit.1).1 hfit.2 hrest)

/-- A closed group of a tree that edits made is found under its key after any further edits, with
the children that it had. -/
theorem exists_closed {start : Draft} (hempty : start.parts = []) {before after : List Edit}
    (hfit : FitAll start (before ++ after)) (hafter : ∀ edit ∈ after, edit.isRemoval = false)
    {g : Part} (hg : g ∈ (run start before).flatten) (hclosed : g.isClosed = true) :
    ∃ g', (run start (before ++ after)).find? g.key = some g' ∧ g.Remains g' := by
  obtain ⟨hbefore, hrest⟩ := fitAll_append.1 hfit
  have hstart : Distinct start := by
    constructor <;> simp [Tree.keys, hempty]
  have hd := distinct_run hstart hbefore
  have hrun : run start (before ++ after) = run (run start before) after := List.foldl_append
  obtain ⟨g', hg', hremains⟩ := keepsClosed_run hd hrest hafter g hg hclosed
  refine ⟨g', ?_, hremains⟩
  rw [hrun, ← hremains.key_eq]
  exact Tree.find?_eq_some (distinct_run hd hrest).nodup hg'

end Edit

end SqlComposer
