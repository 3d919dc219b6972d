import SqlComposer.Proofs.Table.Made
import SqlComposer.Proofs.Text.Fragments

/-!
# What a call is for

A call of a table collects for a definition or for an alteration, or it brings nothing into a
statement. Its parts say what it brings, and all of them have tags of the one kind.
-/
namespace SqlComposer.Table

namespace Request

/-- A call that brings nothing into a statement: a member is left out or numbers the rows. -/
def isSilent : Request → Bool
  | .collect call => call.constraint?.isNone
  | .column .. => false

/-- What a call collects belongs to the statement that a finisher makes. -/
def Suits (request : Request) : Finish → Prop
  | .create => request.isAlteration = false
  | .compile => request.isAlteration = true ∨ request.isSilent = true
  | .rename _ | .drop => request.isSilent = true

instance (request : Request) : DecidablePred request.Suits := fun finish =>
  match finish with
  | .create => inferInstanceAs (Decidable (_ = false))
  | .compile => inferInstanceAs (Decidable (_ ∨ _))
  | .rename _ | .drop => inferInstanceAs (Decidable (_ = true))

end Request

def Finish.keeps : Finish → Tag → Bool
  | .create, tag => !tag.alters
  | .compile, tag => tag.alters
  | .rename _, tag => tag == .renameTable
  | .drop, tag => tag == .dropTable

variable {s : Schema} {request : Request} {ps : List Part} {d : Dialect} {v : View} {finish : Finish}

/-! ### The texts of a call -/

theorem isLong_constraint {call : Call} {text : String} (h : call.constraint? = some text) :
    Text.IsLong text := by
  have hprimary (members : String) : Text.IsLong ("PRIMARY KEY (" ++ members ++ ")") :=
    .of_contains ((Text.contains_append_left _ _).trans (Text.contains_append_left _ _)) (by decide)
  cases call with
  | ignore => cases h
  | key member autoIncrement =>
    cases autoIncrement <;> cases h
    exact hprimary member
  | compositeKey members =>
    cases h
    exact hprimary _
  | foreignKey member table reference =>
    cases h
    simp only [String.append_assoc]
    exact .of_contains (Text.contains_append_left "FOREIGN KEY(" _) (by decide)

theorem isLong_columnText (d : Dialect) {decl : ColumnDecl} (h : decl.autoIncrement = false) :
    Text.IsLong (columnText d decl) := by
  have htype : Text.IsLong (d.typeKeyword decl.columnType) := by
    cases d <;> cases decl.columnType <;> decide
  refine .of_contains ?_ htype
  rw [columnText, h]
  exact (Text.contains_append_left _ _).trans ((Text.contains_append_left _ _).trans
    (Text.contains_append_right _ _))

theorem isLong_operation {operation : String} (h : request.operation? d s = some operation) :
    Text.IsLong operation := by
  have hbehind {s t : String} (hs : Text.IsLong s) : Text.IsLong (s ++ t) :=
    .of_contains (Text.contains_append_left s t) hs
  cases request with
  | collect => cases h
  | column name change =>
    cases change with
    | declare => cases h
    | drop =>
      cases h
      exact hbehind (by decide)
    | alter =>
      obtain ⟨decl, -, rfl⟩ := Option.map_eq_some_iff.1 h
      exact hbehind (by decide)
    | add =>
      obtain ⟨decl, -, rfl⟩ := Option.map_eq_some_iff.1 h
      exact hbehind (hbehind (by cases d <;> decide))

theorem constraint?_of_item? {call : Call} (h : call.item? = none) : call.constraint? = none := by
  cases call with
  | ignore => cases h
  | key | compositeKey | foreignKey => exact Option.map_eq_none_iff.1 h

namespace Request

theorem fragments_collect (d : Dialect) (s : Schema) (call : Call) :
    (Request.collect call).fragments d s = call.constraint?.toList := by
  simp [fragments, operation?, constraint?, declared?]

theorem fragments_of_declared? {decl : ColumnDecl} (h : request.declared? s = some decl)
    (d : Dialect) : request.fragments d s = [columnText d decl] := by
  rw [fragments, operation?_eq_none h, (eq_column_of_declared? h).1, h]
  rfl

theorem fragments_of_operation? {operation : String}
    (h : request.operation? d s = some operation) :
    request.fragments d s = ["ALTER TABLE " ++ s.name ++ " ", operation] := by
  rw [fragments, h]

theorem isLong_fragments (d : Dialect) (s : Schema) (request : Request) :
    ∀ fragment ∈ request.fragments d s, Text.IsLong fragment := by
  have hopening : Text.IsLong ("ALTER TABLE " ++ s.name ++ " ") :=
    .of_contains ((Text.contains_append_left _ _).trans (Text.contains_append_left _ _)) (by decide)
  cases request with
  | collect call =>
    rw [fragments_collect]
    exact fun fragment hfragment => isLong_constraint (Option.mem_toList.1 hfragment)
  | column name change type nullable =>
    cases hoperation : operation? d s (.column name change type nullable) with
    | some operation =>
      rw [fragments_of_operation? hoperation, List.forall_mem_cons, List.forall_mem_singleton]
      exact ⟨hopening, isLong_operation hoperation⟩
    | none =>
      cases hdeclared : declared? s (.column name change type nullable) with
      | some decl =>
        rw [fragments_of_declared? hdeclared, List.forall_mem_singleton]
        exact isLong_columnText d (autoIncrement_of_declared? hdeclared)
      | none =>
        rw [fragments, hoperation, hdeclared]
        exact List.forall_mem_nil _

end Request

theorem leafText_column (v : View) (key : Key) (decl : ColumnDecl) :
    (Part.column key decl).leafText v = columnText v.dialect decl ++ itemSeparator v key := by
  rw [← Entry.render_column]
  rfl

theorem Makes.texts (h : Makes d s request ps) (hv : v.dialect = d) :
    (request.isSilent = true ∧ ∀ p ∈ ps, p.leafText v = "") ∨
      request.isSilent = false ∧
        List.Forall₂ (fun p fragment => Text.Contains (p.leafText v) fragment) ps
          (request.fragments d s) := by
  cases h with
  | @item key call item hitem =>
    rcases item_cases hitem with ⟨member, rfl, rfl⟩ | ⟨text, rfl, htext, -⟩
    · exact .inl ⟨rfl, List.forall_mem_singleton.2 rfl⟩
    · rw [Request.fragments_collect, Request.isSilent, htext]
      exact .inr ⟨rfl, .cons (Text.contains_append_left text (itemSeparator v key)) .nil⟩
  | nothing hitem =>
    rw [Request.isSilent, constraint?_of_item? hitem]
    exact .inl ⟨rfl, List.forall_mem_nil _⟩
  | @column key _ decl hdeclared =>
    have hcontains := Text.contains_append_left (columnText d decl) (itemSeparator v key)
    rw [← hv, ← leafText_column, hv] at hcontains
    rw [Request.fragments_of_declared? hdeclared]
    refine .inr ⟨?_, .cons hcontains .nil⟩
    cases request with
    | collect => cases hdeclared
    | column => rfl
  | @alteration key _ operation p hoperation htag htext =>
    rw [Request.fragments_of_operation? hoperation]
    refine .inr ⟨?_, .cons (.refl _) (.cons (htext v hv ▸ .refl _) .nil)⟩
    cases request with
    | collect => cases hoperation
    | column => rfl

theorem Makes.exists_fragment (h : Makes d s request ps) (hsilent : request.isSilent = false) :
    ∃ fragment, fragment ∈ request.fragments d s := by
  cases h with
  | item | nothing =>
    rw [Request.fragments_collect]
    exact ⟨_, Option.mem_toList.2 (Option.some_get (by simpa [Request.isSilent] using hsilent)).symm⟩
  | column _ hdeclared =>
    rw [Request.fragments_of_declared? hdeclared]
    exact ⟨_, .head _⟩
  | alteration _ hoperation =>
    rw [Request.fragments_of_operation? hoperation]
    exact ⟨_, .head _⟩

theorem Makes.isLong (h : Makes d s request ps) (hv : v.dialect = d) :
    ∀ p ∈ ps, p.leafText v = "" ∨ Text.IsLong (p.leafText v) := by
  intro p hp
  rcases h.texts hv with ⟨-, hnothing⟩ | ⟨-, htexts⟩
  · exact .inl (hnothing p hp)
  · obtain ⟨fragment, hfragment, hcontains⟩ := exists_mem_of_forall₂ htexts hp
    exact .inr (.of_contains hcontains (request.isLong_fragments d s fragment hfragment))

/-! ### The tags of a call -/

namespace Finish

theorem keeps_item {tag : Tag} (h : tag.isTableItem = true) (finish : Finish) :
    finish.keeps tag = true ↔ finish = .create := by
  cases finish <;> cases tag <;> simp_all [keeps, Tag.isTableItem, Tag.alters]

theorem keeps_alters {tag : Tag} (h : tag.alters = true) (finish : Finish) :
    finish.keeps tag = true ↔ finish = .compile := by
  cases finish <;> cases tag <;> simp_all [keeps, Tag.alters]

end Finish

namespace Request

theorem suits_of_isSilent (h : request.isSilent = true) (finish : Finish) :
    request.Suits finish := by
  cases request with
  | column => cases h
  | collect =>
    cases finish with
    | create => rfl
    | compile => exact .inr h
    | rename | drop => exact h

theorem suits_iff_create (hsilent : request.isSilent = false) (halter : request.isAlteration = false)
    (finish : Finish) : request.Suits finish ↔ finish = .create := by
  cases finish <;> simp [Suits, hsilent, halter]

theorem suits_iff_compile (halter : request.isAlteration = true) (finish : Finish) :
    request.Suits finish ↔ finish = .compile := by
  have hsilent : request.isSilent = false := by
    cases request with
    | collect => cases halter
    | column => rfl
  cases finish <;> simp [Suits, hsilent, halter]

theorem isAlteration_of_operation? {operation : String}
    (h : request.operation? d s = some operation) : request.isAlteration = true := by
  cases request with
  | collect => cases h
  | column _ change =>
    cases change with
    | declare => cases h
    | add | alter | drop => rfl

end Request

theorem Makes.keeps_iff (h : Makes d s request ps) (hsilent : request.isSilent = false)
    (finish : Finish) : ∀ p ∈ ps, (finish.keeps p.tag = true ↔ request.Suits finish) := by
  cases h with
  | @item key call item hitem =>
    rw [List.forall_mem_singleton, Request.suits_iff_create hsilent rfl]
    rcases item_cases hitem with ⟨member, rfl, rfl⟩ | ⟨text, rfl, -⟩
    · cases hsilent
    · exact Finish.keeps_item rfl finish
  | nothing => exact List.forall_mem_nil _
  | column key hdeclared =>
    have halter := (Request.eq_column_of_declared? hdeclared).2.2.2
    rw [List.forall_mem_singleton, Request.suits_iff_create hsilent halter]
    exact Finish.keeps_item rfl finish
  | alteration key hoperation htag =>
    rw [Request.suits_iff_compile (Request.isAlteration_of_operation? hoperation),
      List.forall_mem_cons, List.forall_mem_singleton]
    exact ⟨Finish.keeps_alters rfl finish, Finish.keeps_alters htag finish⟩

theorem Makes.suits_iff (h : Makes d s request ps) (hv : v.dialect = d) (finish : Finish) :
    (∀ p ∈ ps, finish.keeps p.tag = true ∨ p.leafText v = "") ↔ request.Suits finish := by
  rcases h.texts hv with ⟨hsilent, hnothing⟩ | ⟨hsilent, htexts⟩
  · exact iff_of_true (fun p hp => .inr (hnothing p hp)) (Request.suits_of_isSilent hsilent finish)
  · have hkeeps := h.keeps_iff hsilent finish
    refine ⟨fun hall => ?_, fun hsuits p hp => .inl ((hkeeps p hp).2 hsuits)⟩
    obtain ⟨p, hp, hlong⟩ : ∃ p ∈ ps, Text.IsLong (p.leafText v) := by
      obtain ⟨fragment, hfragment⟩ := h.exists_fragment hsilent
      obtain ⟨p, hp, hcontains⟩ := exists_mem_of_forall₂ htexts.flip hfragment
      exact ⟨p, hp, .of_contains hcontains (request.isLong_fragments d s fragment hfragment)⟩
    exact (hkeeps p hp).1 ((hall p hp).resolve_right hlong.ne_empty)

theorem Makes.exists_stray (h : Makes d s request ps) (hv : v.dialect = d)
    (hsuits : ¬request.Suits finish) {fragment : String}
    (hfragment : fragment ∈ request.fragments d s) :
    ∃ p ∈ ps, finish.keeps p.tag = false ∧ Text.Contains (p.leafText v) fragment := by
  rcases h.texts hv with ⟨hsilent, -⟩ | ⟨hsilent, htexts⟩
  · exact absurd (Request.suits_of_isSilent hsilent finish) hsuits
  · obtain ⟨p, hp, hcontains⟩ := exists_mem_of_forall₂ htexts.flip hfragment
    refine ⟨p, hp, ?_, hcontains⟩
    rw [← Bool.not_eq_true]
    exact mt (h.keeps_iff hsilent finish p hp).1 hsuits

theorem Makes.isSome_operation? (h : Makes d s request ps) :
    (request.operation? d s).isSome = request.isAlteration := by
  cases h with
  | item | nothing => rfl
  | column _ hdeclared =>
    rw [Request.operation?_eq_none hdeclared, (Request.eq_column_of_declared? hdeclared).2.2.2]
    rfl
  | alteration _ hoperation =>
    rw [hoperation, Request.isAlteration_of_operation? hoperation]
    rfl

theorem Makes.tag_cases (h : Makes d s request ps) {p : Part} (hp : p ∈ ps) :
    p.tag.alters = true ∨ ∃ e : Entry, e.part = p := by
  cases h with
  | @item key _ item =>
    rw [List.mem_singleton.1 hp]
    exact .inr ⟨(key, item), rfl⟩
  | nothing => cases hp
  | @column key _ decl =>
    rw [List.mem_singleton.1 hp]
    exact .inr ⟨(key, .column decl), rfl⟩
  | alteration _ _ htag =>
    rcases List.mem_cons.1 hp with rfl | hp
    · exact .inl rfl
    · exact .inl (List.mem_singleton.1 hp ▸ htag)

end SqlComposer.Table
