import SqlComposer.Proofs.Supply
import SqlComposer.Proofs.Table.Collected
import SqlComposer.Proofs.Table.Settled

/-!
# How a definition is put together

The columns declared for members are taken out; then each member's column goes ahead of the columns
that are there, or behind the opening if there are none; and what no member has taken goes behind
the last column. So the columns of a definition stand together, and the parts beside them keep their
order.
-/
namespace SqlComposer.Table

variable {q : Table} {c : Compiler} {s : Schema} {requests : List Request} {d : Draft}
  {opening : Part} {front back : List Part} {columns placed declared : List Column}

/-! ### Members that are left out -/

theorem isIgnored_iff (t : Tree) (member : String) :
    isIgnored t member = true ↔ member ∈ t.parts.filterMap Part.ignored? := by
  simp only [isIgnored, Tree.partsOf, List.any_filter, List.any_eq_true, List.mem_filterMap,
    Part.ignored?, Bool.and_eq_true, beq_iff_eq]
  refine exists_congr fun p => and_congr_right fun _ => ?_
  split_ifs with htag <;> simp [htag]

/-! ### Columns taken out -/

def isMemberColumn (s : Schema) (p : Part) : Bool :=
  p.tag == .column && (p.id?.bind s.field?).isSome

theorem foldl_remove (picked : List Part) (hpicked : (picked.map Part.key).Nodup) (taken : List Part)
    (d : Draft) (hkeys : (d.parts.map Part.key).Nodup) (hsub : picked ⊆ d.parts) :
    (picked.map Part.key).foldl (fun (taken, d) key =>
        match d.remove? key with
        | some (p, t) => (taken ++ [p], { t with nextKey := d.nextKey })
        | none => (taken, d)) (taken, d) =
      (taken ++ picked,
        { d with parts := d.parts.filter fun p => p.key ∉ picked.map Part.key }) := by
  induction picked generalizing taken d with
  | nil => simp
  | cons p picked ih =>
    obtain ⟨hp, hrest⟩ := List.cons_subset.1 hsub
    rw [List.map_cons, List.nodup_cons] at hpicked
    have hremove : d.remove? p.key =
        some (p, { d.toTree with parts := d.parts.filter fun q => q.key ≠ p.key }) := by
      rw [Tree.remove?, Draft.take?_eq hkeys hp]
      rfl
    rw [List.map_cons, List.foldl_cons]
    simp only [hremove]
    rw [ih hpicked.2]
    · simp [List.filter_filter, Bool.and_comm]
    · exact hkeys.sublist (List.filter_sublist.map _)
    · intro q hq
      have hne : q.key ≠ p.key := fun heq => hpicked.1 (heq ▸ List.mem_map_of_mem hq)
      exact List.mem_filter.2 ⟨hrest hq, by simpa using hne⟩

theorem liftDeclared_eq (s : Schema) (d : Draft) (hkeys : (d.parts.map Part.key).Nodup) :
    liftDeclared s d = (d.parts.filter (isMemberColumn s),
      { d with parts := d.parts.filter fun p => !isMemberColumn s p }) := by
  have hpicked := List.filter_sublist (p := isMemberColumn s) (l := d.parts)
  have hlift := foldl_remove (d.parts.filter (isMemberColumn s)) (hkeys.sublist (hpicked.map _)) []
    d hkeys hpicked.subset
  have hleft : (d.parts.filter fun p => p.key ∉ (d.parts.filter (isMemberColumn s)).map Part.key) =
      d.parts.filter fun p => !isMemberColumn s p := by
    refine List.filter_congr fun p hp => ?_
    have hmem : p.key ∈ (d.parts.filter (isMemberColumn s)).map Part.key ↔
        isMemberColumn s p = true := by
      constructor
      · intro h
        obtain ⟨q, hq, hkey⟩ := List.mem_map.1 h
        rw [List.mem_filter] at hq
        rw [← List.inj_on_of_nodup_map hkeys hq.1 hp hkey]
        exact hq.2
      · exact fun h => List.mem_map_of_mem (List.mem_filter.2 ⟨hp, h⟩)
    simp [hmem]
  rw [hleft] at hlift
  exact hlift

/-! ### Columns put in -/

/-- The columns that are in stand together; those that were taken out are not in yet. -/
structure Placing (d : Draft) (opening : Part) (front back : List Part)
    (columns declared : List Column) : Prop where
  shape : d.shape = .statement
  tag : opening.tag = .createTable
  parts : d.parts = opening :: (front ++ columns.map Column.part ++ back)
  front_eq_nil : columns = [] → front = []
  isMark : ∀ p ∈ front ++ back, IsMark p
  given : Given d.nextKey ((d.parts ++ declared.map Column.part).map Part.key)

namespace Placing

theorem notColumn (h : Placing d opening front back columns declared) :
    (∀ p ∈ opening :: front, (p.tag == .column) = false) ∧
      ∀ p ∈ back, (p.tag == .column) = false := by
  have hopening : (opening.tag == Tag.column) = false := by
    rw [h.tag]
    rfl
  rw [List.forall_mem_cons, and_assoc, ← List.forall_mem_append]
  exact ⟨hopening, fun p hp => (h.isMark p hp).ne_column⟩

theorem contains_column (h : Placing d opening front back columns declared) :
    d.contains .column = !columns.isEmpty := by
  obtain ⟨hfront, hback⟩ := h.notColumn
  rw [Tree.contains, h.parts, ← List.cons_append, ← List.cons_append, any_column hfront hback]

theorem parts_placeColumn (h : Placing d opening front back columns declared) (p : Part) :
    (Table.placeColumn d p).parts =
      opening :: (front ++ p :: (columns.map Column.part ++ back)) := by
  obtain ⟨hfront, hback⟩ := h.notColumn
  rw [Table.placeColumn, h.contains_column]
  cases columns with
  | nil =>
    have hnone : ∀ q ∈ back, (q.tag == .createTable) = false := fun q hq =>
      (h.isMark q (List.mem_append_right _ hq)).ne_createTable
    have hopening : (opening.tag == .createTable) = true := by
      rw [h.tag]
      rfl
    have hparts := h.parts
    rw [h.front_eq_nil rfl] at hparts ⊢
    change insertBehind (fun q => q.tag == .createTable) p d.parts = _
    rw [hparts]
    exact insertBehind_append (l := []) hopening hnone
  | cons e columns =>
    have hcontains : d.contains .column = true := h.contains_column
    change (d.addBefore p .column).parts = _
    rw [Tree.addBefore, if_pos hcontains, h.parts]
    have hinsert := insertAhead_append (a := p) (l := opening :: front)
      (r := (e :: columns).map Column.part ++ back) (p := fun q => q.tag == .column) hfront
      fun q hq => by cases hq; rfl
    simpa using hinsert

theorem placeColumn {e : Column} (h : Placing d opening front back columns (e :: declared)) :
    Placing (Table.placeColumn d e.part) opening front back (e :: columns) declared where
  shape := by
    rw [Table.placeColumn, Tree.addBefore]
    split_ifs <;> exact h.shape
  tag := h.tag
  parts := by
    rw [h.parts_placeColumn, List.append_assoc]
    rfl
  front_eq_nil := nofun
  isMark := h.isMark
  given := by
    have hkey : (Table.placeColumn d e.part).nextKey = d.nextKey := by
      rw [Table.placeColumn]
      split_ifs <;> rfl
    let rest := columns.map Column.part ++ back ++ declared.map Column.part
    let parts := opening :: (front ++ columns.map Column.part ++ back)
    have hleft : ((opening :: front) ++ e.part :: rest).Perm (e.part :: ((opening :: front) ++ rest)) :=
      List.perm_middle
    have hright : (parts ++ e.part :: declared.map Column.part).Perm
        (e.part :: (parts ++ declared.map Column.part)) :=
      List.perm_middle
    have hrest : (opening :: front) ++ rest = parts ++ declared.map Column.part := by
      simp [rest, parts]
    have hperm : ((Table.placeColumn d e.part).parts ++ declared.map Column.part).Perm
        (d.parts ++ (e :: declared).map Column.part) := by
      rw [h.parts_placeColumn, h.parts]
      rw [hrest] at hleft
      simpa [rest, parts] using hleft.trans hright.symm
    rw [hkey]
    exact h.given.perm (hperm.map _)

theorem fresh (h : Placing d opening front back columns declared) (decl : ColumnDecl) :
    Placing (d.spend 1 d.toTree) opening front back columns ((d.nextKey, decl) :: declared) where
  shape := h.shape
  tag := h.tag
  parts := h.parts
  front_eq_nil := h.front_eq_nil
  isMark := h.isMark
  given := by
    refine (h.given.append_range' 1).perm ?_
    have hperm : (d.parts.map Part.key ++ d.nextKey :: (declared.map Column.part).map Part.key).Perm
        (d.nextKey :: (d.parts.map Part.key ++ (declared.map Column.part).map Part.key)) :=
      List.perm_middle
    have hlast := List.perm_append_singleton d.nextKey
      (d.parts.map Part.key ++ (declared.map Column.part).map Part.key)
    simpa [Draft.spend, Column.part, Part.key, Part.column, Part.head] using hperm.trans hlast.symm

theorem perm {declared' : List Column} (h : Placing d opening front back columns declared)
    (hperm : declared.Perm declared') : Placing d opening front back columns declared' where
  shape := h.shape
  tag := h.tag
  parts := h.parts
  front_eq_nil := h.front_eq_nil
  isMark := h.isMark
  given := h.given.perm (((hperm.map _).append_left _).map _).symm

theorem isIgnored_eq (h : Placing d opening front back columns declared) (member : String) :
    isIgnored d.toTree member = decide (member ∈ (front ++ back).filterMap Part.ignored?) := by
  have hopening : opening.ignored? = none := by
    rw [Part.ignored?, h.tag]
    rfl
  have hcolumns : (columns.map Column.part).filterMap Part.ignored? = [] := by
    rw [List.filterMap_eq_nil_iff, List.forall_mem_map]
    exact fun _ _ => rfl
  rw [Bool.eq_iff_iff, isIgnored_iff, decide_eq_true_iff, h.parts,
    List.filterMap_cons_none hopening, List.filterMap_append, List.filterMap_append, hcolumns,
    List.append_nil, ← List.filterMap_append]

theorem placeMember (h : Placing d opening front back (placed ++ columns) declared) (q : Table)
    {f : FieldDef} (hshown : f.memberName ∉ (front ++ back).filterMap Part.ignored?) :
    ∃ d' placed' declared',
      q.placeMember (declared.map Column.part, d) f = (declared'.map Column.part, d') ∧
      Placing d' opening front back (placed' ++ columns) declared' ∧
      (placed'.map Prod.snd, declared'.map Prod.snd) =
        settleMember q.autoIncrement.contains f (placed.map Prod.snd, declared.map Prod.snd) := by
  have hparts := swapTake?_map Column.part (fun p : Part => p.id? == some f.memberName) declared
  have hdecls := swapTake?_map Prod.snd (fun decl => decl.name == f.memberName) declared
  have hname : (fun e : Column => e.part.id? == some f.memberName) =
      fun e => e.2.name == f.memberName := rfl
  rw [Table.placeMember, h.isIgnored_eq, if_neg (by simpa using hshown), settleMember]
  rw [hname] at hparts
  simp only [hparts, hdecls]
  rcases swapTake?_cases (fun e : Column => e.2.name == f.memberName) declared with
    ⟨htake, -⟩ | ⟨e, rest, htake, -, hperm⟩
  · simp only [htake]
    exact ⟨_, (d.nextKey, columnOf q.autoIncrement.contains f) :: placed, declared, rfl,
      (h.fresh _).placeColumn, rfl⟩
  · simp only [htake]
    exact ⟨_, e :: placed, rest, rfl, (h.perm hperm).placeColumn, rfl⟩

theorem placeMembers (h : Placing d opening front back columns declared) (q : Table)
    (fields : List FieldDef) :
    ∃ d' placed rest,
      fields.reverse.foldl q.placeMember (declared.map Column.part, d) =
        (rest.map Column.part, d') ∧
      Placing d' opening front back (placed ++ columns) rest ∧
      (placed.map Prod.snd, rest.map Prod.snd) =
        settle q.autoIncrement.contains
          (fields.filter fun f => f.memberName ∉ (front ++ back).filterMap Part.ignored?)
          (declared.map Prod.snd) := by
  rw [List.foldl_reverse]
  induction fields with
  | nil => exact ⟨d, [], declared, rfl, h, rfl⟩
  | cons f fields ih =>
    obtain ⟨d', placed, rest, hfold, hplacing, hsettled⟩ := ih
    rw [List.foldr_cons, hfold]
    by_cases hshown : f.memberName ∉ (front ++ back).filterMap Part.ignored?
    · obtain ⟨d'', placed', rest', hplace, hplacing', hsettled'⟩ := hplacing.placeMember q hshown
      refine ⟨d'', placed', rest', hplace, hplacing', ?_⟩
      rw [hsettled', List.filter_cons_of_pos (by simpa using hshown), hsettled]
      rfl
    · refine ⟨d', placed, rest, ?_, hplacing, ?_⟩
      · rw [Table.placeMember, hplacing.isIgnored_eq, if_pos (decide_eq_true (not_not.1 hshown))]
      · rw [hsettled, List.filter_cons_of_neg (by simpa using hshown)]

theorem given_addAfter {e : Column} (h : Placing d opening front back columns (e :: declared)) :
    Given d.nextKey (((d.addAfter e.part .column).parts ++ declared.map Column.part).map Part.key) := by
  have hinsert := (insertBehind_perm (fun p => p.tag == .column) e.part d.parts).append_right
    (declared.map Column.part)
  rw [List.append_assoc] at hinsert
  exact h.given.perm (hinsert.map _)

theorem addAfter {e : Column} (h : Placing d opening front back columns (e :: declared))
    (hcolumns : columns ≠ []) :
    Placing (d.spend 0 (d.addAfter e.part .column)) opening front back (columns ++ [e]) declared where
  shape := h.shape
  tag := h.tag
  parts := by
    have hinsert := insertBehind_column h.notColumn.2 hcolumns (opening :: front) e.part
    change insertBehind _ e.part d.parts = _
    rw [h.parts]
    simpa using hinsert
  front_eq_nil hnil := by simp at hnil
  isMark := h.isMark
  given := h.given_addAfter

theorem addAfter_of_nil {e : Column} (h : Placing d opening front back [] (e :: declared)) :
    Placing (d.spend 0 (d.addAfter e.part .column)) opening (front ++ back) [] [e] declared where
  shape := h.shape
  tag := h.tag
  parts := by
    obtain ⟨hfront, hback⟩ := h.notColumn
    have hnone : ∀ p ∈ opening :: (front ++ back), (p.tag == .column) = false :=
      List.forall_mem_append.2 ⟨hfront, hback⟩
    change insertBehind _ e.part d.parts = _
    rw [h.parts, List.map_nil, List.append_nil, insertBehind_of_none hnone]
    simp
  front_eq_nil := nofun
  isMark := by simpa using h.isMark
  given := h.given_addAfter

/-- The draft with what no member has taken put behind the last column. -/
def putBack (d : Draft) (rest : List Column) : Draft :=
  (rest.map Column.part).foldl (fun d p => d.spend 0 (d.addAfter p .column)) d

theorem putBack_of_ne_nil (h : Placing d opening front back columns declared)
    (hcolumns : columns ≠ []) :
    Placing (putBack d declared) opening front back (columns ++ declared) [] := by
  induction declared generalizing d columns with
  | nil => rwa [List.append_nil]
  | cons e declared ih =>
    have hnext := ih (h.addAfter hcolumns) (by simp)
    rwa [List.append_assoc] at hnext

theorem exists_putBack (h : Placing d opening front back columns declared) :
    ∃ before behind, Placing (putBack d declared) opening before behind (columns ++ declared) [] ∧
      before ++ behind = front ++ back ∧ (columns ≠ [] → before = front) ∧
      (columns = [] → declared ≠ [] → behind = []) := by
  by_cases hcolumns : columns = []
  · subst hcolumns
    cases declared with
    | nil => exact ⟨front, back, h, rfl, fun _ => rfl, fun _ hne => absurd rfl hne⟩
    | cons e declared =>
      refine ⟨front ++ back, [], h.addAfter_of_nil.putBack_of_ne_nil (by simp), ?_, ?_, fun _ _ => rfl⟩
      · exact List.append_nil _
      · exact fun hne => absurd rfl hne
  · exact ⟨front, back, h.putBack_of_ne_nil hcolumns, rfl, fun _ => rfl, fun hnil => absurd hnil hcolumns⟩

end Placing

/-! ### The definition -/

def openedDraft (q : Table) : Draft :=
  q.draft.spend 1 (q.draft.addBefore
    (.text q.draft.nextKey .createTable (q.compiler.dialect.createTable q.name)) .plain)

def memberColumns (s : Schema) (requests : List Request) : List ColumnDecl :=
  (declarations s requests).filter fun decl => (s.field? decl.name).isSome

/-- The columns of the members, and the declared ones that no member takes. -/
def settled (s : Schema) (requests : List Request) : List ColumnDecl × List ColumnDecl :=
  settle (fun member => decide (.collect (.key member true) ∈ requests)) (keptMembers s requests)
    (memberColumns s requests)

def definedColumns (s : Schema) (requests : List Request) : List ColumnDecl :=
  (settled s requests).1 ++ extraColumns s requests ++ (settled s requests).2

/-- The calls let the columns lead. A column of an unknown name stays behind the keys that were asked
for ahead of the first declared column; without one, the columns of members go in front of them. -/
def KeysFollow (s : Schema) (requests : List Request) : Prop :=
  if extraColumns s requests = [] then
    keptMembers s requests ≠ [] ∨ declarations s requests = [] ∨ keyTexts requests = []
  else keyTexts (early s requests) = []

instance (s : Schema) (requests : List Request) : Decidable (KeysFollow s requests) :=
  inferInstanceAs (Decidable (if extraColumns s requests = [] then
      keptMembers s requests ≠ [] ∨ declarations s requests = [] ∨ keyTexts requests = []
    else keyTexts (early s requests) = []))

theorem definedColumns_of_eq_nil (hextra : extraColumns s requests = [])
    (hkept : keptMembers s requests = []) :
    definedColumns s requests = declarations s requests := by
  have hmembers : memberColumns s requests = declarations s requests :=
    List.filter_eq_self.2 fun decl hdecl => by
      simpa [Option.isSome_iff_ne_none] using List.filter_eq_nil_iff.1 hextra decl hdecl
  rw [definedColumns, settled, hkept, hextra, hmembers]
  rfl

theorem keysFollow_iff {before behind : List String} (hkeys : before ++ behind = keyTexts requests)
    (hextra : extraColumns s requests ≠ [] → before = keyTexts (early s requests))
    (hkept : extraColumns s requests = [] → keptMembers s requests ≠ [] → before = [])
    (hnone : extraColumns s requests = [] → keptMembers s requests = [] →
      definedColumns s requests ≠ [] → behind = []) :
    before = [] ∨ definedColumns s requests = [] ↔ KeysFollow s requests := by
  rw [KeysFollow]
  split_ifs with hnil
  · by_cases hmembers : keptMembers s requests = []
    · -- no member has opened the columns, so the first declared one went behind all keys
      rw [definedColumns_of_eq_nil hnil hmembers] at hnone ⊢
      constructor
      · rintro (hbefore | hdeclared)
        · by_cases hdeclared : declarations s requests = []
          · exact .inr (.inl hdeclared)
          · rw [← hkeys, hbefore, hnone hnil hmembers hdeclared]
            exact .inr (.inr rfl)
        · exact .inr (.inl hdeclared)
      · rintro (hne | hdeclared | htexts)
        · exact absurd hmembers hne
        · exact .inr hdeclared
        · rw [htexts, List.append_eq_nil_iff] at hkeys
          exact .inl hkeys.1
    · exact iff_of_true (.inl (hkept hnil hmembers)) (.inl hmembers)
  · have hdefined : definedColumns s requests ≠ [] := by simp [definedColumns, hnil]
    rw [or_iff_left hdefined, hextra hnil]

namespace Collected

theorem parts_openedDraft (h : q.Collected c s requests front back columns) :
    q.openedDraft.parts =
      .text q.draft.nextKey .createTable (c.dialect.createTable s.name) :: q.draft.parts := by
  have hplain : q.draft.contains .plain = false := by
    rw [Tree.contains, h.parts, List.any_eq_false]
    intro p hp
    rw [List.append_assoc, List.mem_append, List.mem_append, List.mem_map] at hp
    rcases hp with hp | ⟨e, -, rfl⟩ | hp
    · simp [(h.isMark p (List.mem_append_left _ hp)).ne_plain]
    · exact Bool.false_ne_true
    · simp [(h.isMark p (List.mem_append_right _ hp)).ne_plain]
  rw [openedDraft, Tree.addBefore, hplain, if_neg Bool.false_ne_true, h.compiler, name, h.schema]
  rfl

theorem shape_openedDraft (h : q.Collected c s requests front back columns) :
    q.openedDraft.shape = .statement := by
  rw [openedDraft, Tree.addBefore]
  split_ifs <;> exact h.shape

theorem given_openedDraft (h : q.Collected c s requests front back columns) :
    Given q.openedDraft.nextKey (q.openedDraft.parts.map Part.key) := by
  rw [h.parts_openedDraft]
  exact (h.given.append_range' 1).perm (List.perm_append_singleton _ _).symm

theorem filter_beside {ps : List Part} (s : Schema) (h : ∀ p ∈ ps, (p.tag == .column) = false) :
    ps.filter (isMemberColumn s) = [] ∧ ps.filter (fun p => !isMemberColumn s p) = ps := by
  have hnone : ∀ p ∈ ps, isMemberColumn s p = false := fun p hp => by
    rw [isMemberColumn, h p hp, Bool.false_and]
  exact ⟨List.filter_eq_nil_iff.2 fun p hp => by simp [hnone p hp],
    List.filter_eq_self.2 fun p hp => by simp [hnone p hp]⟩

theorem filter_openedDraft (h : q.Collected c s requests front back columns) :
    q.openedDraft.parts.filter (isMemberColumn s) =
        (columns.filter fun e => (s.field? e.2.name).isSome).map Column.part ∧
      q.openedDraft.parts.filter (fun p => !isMemberColumn s p) =
        .text q.draft.nextKey .createTable (c.dialect.createTable s.name) ::
          (front ++ (columns.filter fun e => (s.field? e.2.name).isNone).map Column.part ++ back) := by
  obtain ⟨hfront, hback⟩ := h.notColumn
  obtain ⟨hfront, hfront'⟩ := filter_beside s hfront
  obtain ⟨hback, hback'⟩ := filter_beside s hback
  have hopening : isMemberColumn s
      (.text q.draft.nextKey .createTable (c.dialect.createTable s.name)) = false := rfl
  have hpart (e : Column) : isMemberColumn s e.part = (s.field? e.2.name).isSome := rfl
  rw [h.parts_openedDraft, h.parts]
  simp only [List.filter_cons, List.filter_append, List.filter_map, Function.comp_def, hopening,
    hpart, hfront, hfront', hback, hback', Option.not_isSome, Bool.not_false, Bool.false_eq_true,
    if_true, if_false, List.nil_append, List.append_nil, and_self]

theorem map_filter_columns (h : q.Collected c s requests front back columns)
    (p : ColumnDecl → Bool) :
    (columns.filter fun e => p e.2).map Prod.snd = (declarations s requests).filter p := by
  rw [← h.declared, List.filter_map]
  rfl

theorem exists_lifted (h : q.Collected c s requests front back columns) :
    ∃ d before behind extra member, liftDeclared s q.openedDraft = (member.map Column.part, d) ∧
      Placing d (.text q.draft.nextKey .createTable (c.dialect.createTable s.name)) before behind
        extra member ∧
      extra.map Prod.snd = extraColumns s requests ∧
      member.map Prod.snd = memberColumns s requests ∧
      before ++ behind = front ++ back ∧ before = if extra = [] then [] else front := by
  let extra := columns.filter fun e => (s.field? e.2.name).isNone
  let member := columns.filter fun e => (s.field? e.2.name).isSome
  obtain ⟨hmember, hextra⟩ := h.filter_openedDraft
  have hsplit : (if extra = [] then ([] : List Part) else front) ++
      (if extra = [] then front ++ back else back) = front ++ back := by
    split_ifs <;> rfl
  have hlift := liftDeclared_eq s q.openedDraft h.given_openedDraft.nodup
  -- what is taken out and what is left has the keys of the draft
  have hperm := (List.filter_append_perm (fun p => !isMemberColumn s p) q.openedDraft.parts)
  simp only [Bool.not_not] at hperm
  rw [hmember] at hlift hperm
  refine ⟨_, if extra = [] then [] else front, if extra = [] then front ++ back else back, extra,
    member, hlift, ?_, h.map_filter_columns fun decl => (s.field? decl.name).isNone,
    h.map_filter_columns fun decl => (s.field? decl.name).isSome, hsplit, rfl⟩
  refine ⟨h.shape_openedDraft, rfl, ?_, fun hnil => if_pos hnil, fun p hp => h.isMark p (hsplit ▸ hp),
    h.given_openedDraft.perm (hperm.map _)⟩
  rw [hextra]
  change _ :: (front ++ extra.map Column.part ++ back) = _
  split_ifs with hnil
  · rw [hnil, List.map_nil, List.append_nil, List.nil_append]
    rfl
  · rfl

theorem filter_ignored_marks (h : q.Collected c s requests front back columns) :
    (s.fields.filter fun f => f.memberName ∉ (front ++ back).filterMap Part.ignored?) =
      keptMembers s requests := by
  rw [h.ignored]
  exact List.filter_congr fun f _ => decide_eq_decide.2 (not_congr mem_ignored)

theorem contains_autoIncrement (h : q.Collected c s requests front back columns) :
    q.autoIncrement.contains = fun member => decide (.collect (.key member true) ∈ requests) := by
  funext member
  rw [h.autoIncrement, Bool.eq_iff_iff, List.contains_iff_mem, mem_numbered, decide_eq_true_iff]

/-- What stands in front of the columns and what behind them depends on whether a column is there
when the first one is put in. -/
theorem exists_defined (h : q.Collected c s requests front back columns) :
    ∃ d before behind defined, q.definition = d.addText .plain ")" ∧
      Placing d (.text q.draft.nextKey .createTable (c.dialect.createTable s.name)) before behind
        defined [] ∧
      before ++ behind = front ++ back ∧ defined.map Prod.snd = definedColumns s requests ∧
      (extraColumns s requests ≠ [] → before = front) ∧
      (extraColumns s requests = [] → keptMembers s requests ≠ [] → before = []) ∧
      (extraColumns s requests = [] → keptMembers s requests = [] → defined ≠ [] → behind = []) := by
  obtain ⟨d, front', back', extra, member, hlift, hplacing, hextra, hmember, hbeside, hfront⟩ :=
    h.exists_lifted
  obtain ⟨d', placed, rest, hfold, hplaced, hsettled⟩ := hplacing.placeMembers q s.fields
  obtain ⟨before, behind, hput, hbeside', hbefore, hbehind⟩ := hplaced.exists_putBack
  rw [hbeside, h.filter_ignored_marks, h.contains_autoIncrement, hmember, ← settled] at hsettled
  have hmembers : placed.map Prod.snd = (settled s requests).1 := congrArg Prod.fst hsettled
  have hrest : rest.map Prod.snd = (settled s requests).2 := congrArg Prod.snd hsettled
  have hplaced_nil : placed = [] ↔ keptMembers s requests = [] := by
    have hnames := map_name_settle (fun member => decide (.collect (.key member true) ∈ requests))
      (keptMembers s requests) (memberColumns s requests)
    rw [← settled, ← hmembers] at hnames
    rw [← List.map_eq_nil_iff (f := Prod.snd), ← List.map_eq_nil_iff (f := ColumnDecl.name), hnames,
      List.map_eq_nil_iff]
  have hextra_nil : extra = [] ↔ extraColumns s requests = [] := by
    rw [← hextra, List.map_eq_nil_iff]
  refine ⟨_, before, behind, placed ++ extra ++ rest, ?_, hput, hbeside'.trans hbeside, ?_, ?_, ?_, ?_⟩
  · rw [openedDraft] at hlift
    rw [Table.definition, h.schema, hlift]
    simp only [hfold]
    rfl
  · rw [List.map_append, List.map_append, hextra, hmembers, hrest, definedColumns]
  · intro hne
    rw [hbefore (by simp [hextra_nil, hne]), hfront, if_neg (mt hextra_nil.1 hne)]
  · intro hnil hkept
    rw [hbefore (by simp [hplaced_nil, hkept]), hfront, if_pos (hextra_nil.2 hnil)]
  · intro hnil hkept hdefined
    rw [hplaced_nil.2 hkept, hextra_nil.2 hnil] at hdefined
    exact hbehind (by rw [hplaced_nil.2 hkept, hextra_nil.2 hnil]; rfl) (by simpa using hdefined)

end Collected

structure Defined (q : Table) (c : Compiler) (s : Schema) (requests : List Request)
    (before behind : List Part) (columns : List Column) : Prop where
  compiler : q.compiler = c
  shape : q.definition.shape = .statement
  parts : ∃ first last, q.definition.parts =
    .text first .createTable (c.dialect.createTable s.name) ::
      (before ++ columns.map Column.part ++ behind ++ [.text last .plain ")"])
  keys : ((before ++ columns.map Column.part ++ behind).map Part.key).Nodup
  isMark : ∀ p ∈ before ++ behind, IsMark p
  isEntry : (∀ request ∈ requests, request.isAlteration = false) →
    ∀ p ∈ before ++ behind, ∃ e : Entry, e.part = p
  columns_eq : columns.map Prod.snd = definedColumns s requests
  constraints : (before ++ behind).filterMap Part.constraint? = keyTexts requests
  keysFollow : before.filterMap Part.constraint? = [] ∨ definedColumns s requests = [] ↔
    KeysFollow s requests

theorem Collected.defined (h : q.Collected c s requests front back columns) :
    ∃ before behind defined, q.Defined c s requests before behind defined := by
  obtain ⟨d, before, behind, defined, hdefinition, hplacing, hbeside, hcolumns, hextra, hkept, hnone⟩ :=
    h.exists_defined
  have hconstraints : (before ++ behind).filterMap Part.constraint? = keyTexts requests := by
    rw [hbeside, h.constraints]
  have hkeys := hplacing.given.nodup
  rw [List.map_nil, List.append_nil, hplacing.parts, List.map_cons, List.nodup_cons] at hkeys
  refine ⟨before, behind, defined, h.compiler, ?_, ⟨q.draft.nextKey, d.nextKey, ?_⟩, hkeys.2,
    hplacing.isMark, fun hall => hbeside ▸ h.isEntry hall, hcolumns, hconstraints, ?_⟩
  · rw [hdefinition]
    exact hplacing.shape
  · rw [hdefinition]
    change d.parts ++ [_] = _
    rw [hplacing.parts]
    rfl
  · rw [List.filterMap_append] at hconstraints
    refine keysFollow_iff hconstraints ?_ ?_ ?_
    · intro hne
      rw [hextra hne, h.early]
    · intro hnil hmembers
      rw [hkept hnil hmembers]
      rfl
    · intro hnil hmembers hdefined
      rw [← hcolumns, ne_eq, List.map_eq_nil_iff] at hdefined
      rw [hnone hnil hmembers hdefined]
      rfl

end SqlComposer.Table
