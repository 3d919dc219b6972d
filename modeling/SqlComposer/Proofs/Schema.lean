import Mathlib.Data.List.Find
import Mathlib.Data.List.Nodup
import Mathlib.Data.List.Pairwise
import Mathlib.Data.Option.Basic
import SqlComposer.Schema

/-!
# Definitions that take over the columns of a statement

The definitions of an entity's members take over what the columns of a statement say, column by
column. Where the names keep the members apart, a column speaks to the definition of its own member
only. One that has no name of its own for the result gives the member its own name back, whatever
name the member was selected under before.
-/
namespace SqlComposer

theorem find?_eq_some_of_only {α : Type} {p : α → Bool} {l : List α} {a : α} (ha : a ∈ l)
    (hp : p a = true) (honly : ∀ b ∈ l, p b = true → b = a) : l.find? p = some a := by
  have hsome : (l.find? p).isSome := List.find?_isSome.2 ⟨a, ha, hp⟩
  obtain ⟨b, hb⟩ := Option.isSome_iff_exists.1 hsome
  rw [hb, honly b (List.mem_of_find?_eq_some hb) (List.find?_some hb)]

theorem Text.sameName_refl (s : String) : sameName s s = true :=
  beq_self_eq_true _

def FieldDef.member (f : FieldDef) : Member :=
  ⟨f.memberName, f.columnType, f.nullable⟩

theorem Schema.map_member (e : Entity) : (ofEntity e).fields.map FieldDef.member = e.members := by
  have hmembers (n : Nat) (members : List Member) :
      (FieldDef.ofMembers e.name n members).map FieldDef.member = members := by
    induction members generalizing n with
    | nil => rfl
    | cons m members ih =>
      rw [FieldDef.ofMembers, List.map_cons, ih]
      rfl
  exact hmembers 0 e.members

theorem Schema.map_memberName (e : Entity) :
    (ofEntity e).fields.map FieldDef.memberName = e.members.map Member.name := by
  rw [← map_member e, List.map_map]
  rfl

theorem Schema.fresh (e : Entity) :
    ∀ d ∈ (ofEntity e).fields, d.fieldName = d.memberName ∧ d.converter = none := by
  have hmembers (n : Nat) (members : List Member) :
      ∀ d ∈ FieldDef.ofMembers e.name n members,
        d.fieldName = d.memberName ∧ d.converter = none := by
    induction members generalizing n with
    | nil => exact List.forall_mem_nil _
    | cons m members ih => exact List.forall_mem_cons.2 ⟨⟨rfl, rfl⟩, ih (n + 1)⟩
  exact hmembers 0 e.members

/-- A column that says nothing about its member but the name. -/
structure ColumnRef.IsMention (r : ColumnRef) : Prop where
  resultAlias : r.resultAlias = none
  converter : r.converter = none
  columnType : r.columnType = none

/-- Columns of different members under different names, none of them the name of another member. -/
structure ColumnRef.Apart (members : List String) (columns : List ColumnRef) : Prop where
  fields : (columns.map ColumnRef.field).Nodup
  names : (columns.map ColumnRef.resultName).Nodup
  others : ∀ f ∈ columns, f.resultName ∈ members → f.resultName = f.field

namespace FieldDef

/-- What a definition takes over from a column if it is of its own member. -/
def told (d : FieldDef) (r : ColumnRef) : FieldDef :=
  if d.memberName = r.field then d.matched r r.resultName else d

@[simp] theorem memberName_told (d : FieldDef) (r : ColumnRef) :
    (d.told r).memberName = d.memberName := by
  rw [told]
  split_ifs <;> rfl

variable {members : List String} {columns : List ColumnRef} {fields : List FieldDef}
  {r : ColumnRef} {d : FieldDef}

theorem told_of_ne (h : d.memberName ≠ r.field) : d.told r = d :=
  if_neg h

theorem told_mention (hr : r.IsMention) :
    d.told r = if d.memberName = r.field then { d with fieldName := d.memberName } else d := by
  rw [told]
  split_ifs with h
  · rw [matched, ColumnRef.resultName, hr.resultAlias, hr.converter, hr.columnType, h]
    rfl
  · rfl

theorem matchFirst_eq_map (hmembers : (fields.map memberName).Nodup)
    (hnames : ∀ d ∈ fields, d.fieldName = r.resultName → d.memberName = r.field) :
    matchFirst r r.resultName fields = fields.map fun d => d.told r := by
  induction fields with
  | nil => rfl
  | cons d fields ih =>
    rw [List.map_cons, List.nodup_cons] at hmembers
    obtain ⟨hd, hnames⟩ := List.forall_mem_cons.1 hnames
    rw [matchFirst, List.map_cons]
    by_cases hfield : d.memberName = r.field
    · have hrest : fields.map (fun d => d.told r) = fields := by
        refine (List.map_congr_left fun d' hd' => ?_).trans fields.map_id
        exact told_of_ne fun h =>
          hmembers.1 (List.mem_map.2 ⟨d', hd', h.trans hfield.symm⟩)
      rw [if_pos (by simp [hfield]), hrest, told, if_pos hfield]
    · have hname : d.fieldName ≠ r.resultName := fun h => hfield (hd h)
      rw [if_neg (by simp [hname, hfield]), told_of_ne hfield, ih hmembers.2 hnames]

theorem matchFirst_of_not_mem (hr : r.IsMention) (hfield : ∀ d ∈ fields, d.memberName ≠ r.field) :
    matchFirst r r.resultName fields = fields := by
  induction fields with
  | nil => rfl
  | cons d fields ih =>
    obtain ⟨hd, hfield⟩ := List.forall_mem_cons.1 hfield
    rw [matchFirst]
    by_cases hname : d.fieldName = r.resultName
    · rw [if_pos (by simp [hname]), matched, hr.converter, hr.columnType, ← hname]
      rfl
    · rw [if_neg (by simp [hname, hd]), ih hfield]

/-- Definitions of the members, each by its member's name or by the name of a column of it. -/
structure Named (members : List String) (columns : List ColumnRef) (fields : List FieldDef) :
    Prop where
  members : fields.map memberName = members
  names : ∀ d ∈ fields, d.fieldName = d.memberName ∨
    ∃ r ∈ columns, r.field = d.memberName ∧ r.resultName = d.fieldName

theorem Named.told (h : Named members columns fields) (hr : r ∈ columns ∨ r.IsMention) :
    Named members columns (fields.map fun d => d.told r) where
  members := by
    rw [← h.members, List.map_map]
    exact List.map_congr_left fun d _ => d.memberName_told r
  names := by
    intro d hd
    obtain ⟨d, hmem, rfl⟩ := List.mem_map.1 hd
    rw [memberName_told]
    by_cases hfield : d.memberName = r.field
    · obtain hr | hr := hr
      · refine .inr ⟨r, hr, hfield.symm, ?_⟩
        rw [FieldDef.told, if_pos hfield]
        rfl
      · rw [told_mention hr, if_pos hfield]
        exact .inl rfl
    · rw [told_of_ne hfield]
      exact h.names d hmem

theorem Named.mem_members (h : Named members columns fields) (hd : d ∈ fields) :
    d.memberName ∈ members :=
  h.members ▸ List.mem_map_of_mem hd

theorem Named.memberName_eq (h : Named members columns fields)
    (hapart : ColumnRef.Apart members columns) (hr : r ∈ columns) (hd : d ∈ fields)
    (hname : d.fieldName = r.resultName) : d.memberName = r.field := by
  obtain hown | ⟨r', hr', hfield, hname'⟩ := h.names d hd
  · rw [← hapart.others r hr (hname ▸ hown ▸ h.mem_members hd), ← hname, hown]
  · rw [← hfield, List.inj_on_of_nodup_map hapart.names hr' hr (hname'.trans hname)]

theorem Named.matchFirst (h : Named members columns fields) (hmembers : members.Nodup)
    (hapart : ColumnRef.Apart members columns) (hr : r ∈ columns ∨ r.IsMention) :
    matchFirst r r.resultName fields = fields.map fun d => d.told r := by
  have hnodup : (fields.map memberName).Nodup := h.members ▸ hmembers
  obtain hr | hr := hr
  · exact matchFirst_eq_map hnodup fun d hd => h.memberName_eq hapart hr hd
  · have hresult : r.resultName = r.field := by rw [ColumnRef.resultName, hr.resultAlias]; rfl
    by_cases hmem : r.field ∈ members
    · -- a mention goes by its member's name, which no column of another member has
      refine matchFirst_eq_map hnodup fun d hd hname => ?_
      obtain hown | ⟨r', hr', hfield, hname'⟩ := h.names d hd
      · rw [← hown, hname, hresult]
      · have hsame : r'.resultName = r.field := by rw [hname', hname, hresult]
        rw [← hfield, ← hapart.others r' hr' (hsame ▸ hmem), hsame]
    · have hfield : ∀ d ∈ fields, d.memberName ≠ r.field := fun d hd hfield =>
        hmem (hfield ▸ h.mem_members hd)
      rw [matchFirst_of_not_mem hr hfield]
      exact ((List.map_congr_left fun d hd => told_of_ne (hfield d hd)).trans fields.map_id).symm

theorem Named.foldl_matchFirst (h : Named members columns fields) (hmembers : members.Nodup)
    (hapart : ColumnRef.Apart members columns) {refs : List ColumnRef}
    (hrefs : ∀ r ∈ refs, r ∈ columns ∨ r.IsMention) :
    refs.foldl (fun fields r => FieldDef.matchFirst r r.resultName fields) fields =
      fields.map fun d => refs.foldl FieldDef.told d := by
  induction refs generalizing fields with
  | nil => exact fields.map_id.symm
  | cons r refs ih =>
    obtain ⟨hr, hrefs⟩ := List.forall_mem_cons.1 hrefs
    have hrest := ih (h.told hr) hrefs
    rw [List.map_map] at hrest
    rw [List.foldl_cons, h.matchFirst hmembers hapart hr]
    exact hrest

theorem foldl_told_of_ne {refs : List ColumnRef} (h : ∀ r ∈ refs, d.memberName ≠ r.field) :
    refs.foldl told d = d := by
  induction refs with
  | nil => rfl
  | cons r refs ih =>
    obtain ⟨hr, hrest⟩ := List.forall_mem_cons.1 h
    rw [List.foldl_cons, told_of_ne hr, ih hrest]

theorem foldl_told_columns (hfields : (columns.map ColumnRef.field).Nodup) (d : FieldDef) :
    columns.foldl told d =
      ((columns.find? fun r => r.field == d.memberName).map fun r =>
        d.matched r r.resultName).getD d := by
  induction columns with
  | nil => rfl
  | cons r columns ih =>
    rw [List.map_cons, List.nodup_cons] at hfields
    rw [List.foldl_cons]
    by_cases hfield : d.memberName = r.field
    · have hrest : columns.foldl told (d.matched r r.resultName) = d.matched r r.resultName := by
        refine foldl_told_of_ne fun f hf heq => hfields.1 ?_
        rw [← hfield, show d.memberName = f.field from heq]
        exact List.mem_map_of_mem hf
      rw [told, if_pos hfield, hrest, List.find?_cons_of_pos (by simp [hfield])]
      rfl
    · rw [told_of_ne hfield, ih hfields.2, List.find?_cons_of_neg (by simp [Ne.symm hfield])]

theorem foldl_told_mentions {refs : List ColumnRef} (hrefs : ∀ r ∈ refs, r.IsMention) :
    refs.foldl told d =
      if d.memberName ∈ refs.map ColumnRef.field then { d with fieldName := d.memberName } else d := by
  induction refs generalizing d with
  | nil => rfl
  | cons r refs ih =>
    obtain ⟨hr, hrefs⟩ := List.forall_mem_cons.1 hrefs
    rw [List.foldl_cons, told_mention hr, ih hrefs]
    by_cases hfield : d.memberName = r.field
    · simp [hfield]
    · simp [hfield]

/-- The name that a member goes by after columns and mentions: that of its column, but its own if it
is mentioned. -/
def nameAfter (columns : List ColumnRef) (mentioned : List String) (member : String) : String :=
  if member ∈ mentioned then member
  else ((columns.find? fun r => r.field == member).map ColumnRef.resultName).getD member

def converterAfter? (columns : List ColumnRef) (member : String) : Option Converter :=
  (columns.find? fun r => r.field == member).bind ColumnRef.converter

/-- The converter for a name: that of the first member who goes by it, in any case. -/
def converterFor? (members : List String) (columns : List ColumnRef) (mentioned : List String)
    (name : String) : Option Converter :=
  (members.find? fun member => Text.sameName (nameAfter columns mentioned member) name).bind
    (converterAfter? columns)

theorem foldl_told_append (hfields : (columns.map ColumnRef.field).Nodup)
    (hfresh : d.fieldName = d.memberName ∧ d.converter = none) {behind : List ColumnRef}
    (hbehind : ∀ r ∈ behind, r.IsMention) :
    ((columns ++ behind).foldl told d).fieldName =
        nameAfter columns (behind.map ColumnRef.field) d.memberName ∧
      ((columns ++ behind).foldl told d).converter = converterAfter? columns d.memberName := by
  rw [List.foldl_append, foldl_told_columns hfields, foldl_told_mentions hbehind, nameAfter,
    converterAfter?]
  cases columns.find? fun r => r.field == d.memberName with
  | none =>
    simp only [Option.map_none, Option.getD_none, Option.bind_none]
    split_ifs
    · exact ⟨rfl, hfresh.2⟩
    · exact hfresh
  | some r =>
    have hconverter : (d.matched r r.resultName).converter = r.converter := by
      rw [matched, hfresh.2]
      cases r.converter <;> rfl
    simp only [Option.map_some, Option.getD_some, Option.bind_some]
    split_ifs with h h' h'
    · exact ⟨rfl, hconverter⟩
    · exact absurd h h'
    · exact absurd h' h
    · exact ⟨rfl, hconverter⟩

theorem converter?_foldl_matchFirst
    (hfresh : ∀ d ∈ fields, d.fieldName = d.memberName ∧ d.converter = none)
    (hmembers : (fields.map memberName).Nodup)
    (hapart : ColumnRef.Apart (fields.map memberName) columns) {behind : List ColumnRef}
    (hbehind : ∀ r ∈ behind, r.IsMention) (name : String) :
    Row.converter?
        ((columns ++ behind).foldl (fun fields r => FieldDef.matchFirst r r.resultName fields) fields)
        name =
      converterFor? (fields.map memberName) columns (behind.map ColumnRef.field) name := by
  have hnamed : Named (fields.map memberName) columns fields :=
    ⟨rfl, fun d hd => .inl (hfresh d hd).1⟩
  have hrefs : ∀ r ∈ columns ++ behind, r ∈ columns ∨ r.IsMention := fun r hr =>
    (List.mem_append.1 hr).imp_right (hbehind r)
  rw [hnamed.foldl_matchFirst hmembers hapart hrefs, Row.converter?, converterFor?, List.find?_map,
    List.find?_map, Option.bind_map, Option.bind_map]
  refine Option.bind_congr' (List.find?_congr fun d hd => ?_) fun d hd => ?_
  · rw [Function.comp_apply, Function.comp_apply,
      (foldl_told_append hapart.fields (hfresh d hd) hbehind).1]
  · exact (foldl_told_append hapart.fields (hfresh d (List.mem_of_find?_eq_some hd)) hbehind).2

theorem find?_field_eq_some (hfields : (columns.map ColumnRef.field).Nodup) (hr : r ∈ columns) :
    (columns.find? fun f => f.field == r.field) = some r :=
  find?_eq_some_of_only hr (beq_self_eq_true _) fun _ hf hfield =>
    List.inj_on_of_nodup_map hfields hf hr (beq_iff_eq.1 hfield)

theorem nameAfter_field (hfields : (columns.map ColumnRef.field).Nodup) (hr : r ∈ columns)
    (mentioned : List String) :
    nameAfter columns mentioned r.field =
      if r.field ∈ mentioned then r.field else r.resultName := by
  rw [nameAfter, find?_field_eq_some hfields hr]
  rfl

/-- The converter of a column is the one for its name as long as its member goes by the name and no
other member does. -/
theorem converterFor?_resultName (hapart : ColumnRef.Apart members columns) (hr : r ∈ columns)
    (hmember : r.field ∈ members) {mentioned : List String}
    (honly : ∀ member ∈ members, member ≠ r.field →
      Text.sameName (nameAfter columns mentioned member) r.resultName = false) :
    converterFor? members columns mentioned r.resultName =
      if r.field ∈ mentioned ∧ Text.sameName r.field r.resultName = false then none
      else r.converter := by
  have hfound : ∀ member ∈ members,
      Text.sameName (nameAfter columns mentioned member) r.resultName = true →
        member = r.field := by
    intro member hmem hsame
    by_contra hne
    rw [honly member hmem hne] at hsame
    cases hsame
  have hname := nameAfter_field hapart.fields hr mentioned
  rw [converterFor?]
  by_cases hgone : r.field ∈ mentioned ∧ Text.sameName r.field r.resultName = false
  · have hnone : (members.find? fun member =>
        Text.sameName (nameAfter columns mentioned member) r.resultName) = none := by
      refine List.find?_eq_none.2 fun member hmem hsame => ?_
      rw [hfound member hmem hsame, hname, if_pos hgone.1, hgone.2] at hsame
      cases hsame
    rw [hnone, if_pos hgone, Option.bind_none]
  · have hkept : Text.sameName (nameAfter columns mentioned r.field) r.resultName = true := by
      rw [hname]
      split_ifs with hmentioned
      · exact Bool.of_not_eq_false fun h => hgone ⟨hmentioned, h⟩
      · exact Text.sameName_refl _
    rw [find?_eq_some_of_only hmember hkept hfound, if_neg hgone, Option.bind_some,
      converterAfter?, find?_field_eq_some hapart.fields hr, Option.bind_some]

end FieldDef

end SqlComposer
