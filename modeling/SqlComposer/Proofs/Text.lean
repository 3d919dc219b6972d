import SqlComposer.Text
import Mathlib.Data.List.Infix

/-!
# Texts inside texts

What joining, line break removal and appending do to the characters of a text.
-/
namespace SqlComposer.Text

def Contains (s t : String) : Prop :=
  t.toList <:+: s.toList

instance (s t : String) : Decidable (Contains s t) :=
  inferInstanceAs (Decidable (t.toList <:+: s.toList))

variable {s t u : String}

theorem Contains.refl (s : String) : Contains s s :=
  List.infix_rfl

theorem Contains.trans (h : Contains s t) (h' : Contains t u) : Contains s u :=
  List.IsInfix.trans h' h

theorem contains_append_left (s t : String) : Contains (s ++ t) s := by
  rw [Contains, String.toList_append]
  exact (List.prefix_append _ _).isInfix

theorem contains_append_right (s t : String) : Contains (s ++ t) t := by
  rw [Contains, String.toList_append]
  exact (List.suffix_append _ _).isInfix

theorem toList_dropLineBreaks (s : String) :
    (dropLineBreaks s).toList = s.toList.filter fun c => !isLineBreak c :=
  String.toList_ofList

theorem dropLineBreaks_append (s t : String) :
    dropLineBreaks (s ++ t) = dropLineBreaks s ++ dropLineBreaks t := by
  rw [← String.toList_inj]
  simp only [String.toList_append, toList_dropLineBreaks, List.filter_append]

@[simp] theorem dropLineBreaks_dropLineBreaks (s : String) :
    dropLineBreaks (dropLineBreaks s) = dropLineBreaks s := by
  rw [← String.toList_inj]
  simp only [toList_dropLineBreaks, List.filter_filter, Bool.and_self]

theorem Contains.dropLineBreaks (h : Contains s t) :
    Contains (dropLineBreaks s) (dropLineBreaks t) := by
  rw [Contains, toList_dropLineBreaks, toList_dropLineBreaks]
  exact List.IsInfix.filter _ h

theorem joinWith_cons (separator s : String) (l : List String) :
    joinWith separator (s :: l) =
      if l = [] then s else s ++ separator ++ joinWith separator l := by
  cases l <;> rfl

theorem contains_joinWith {separator : String} {l : List String} (hs : s ∈ l) :
    Contains (joinWith separator l) s := by
  induction l with
  | nil => cases hs
  | cons a l ih =>
    rw [joinWith_cons]
    by_cases hl : l = []
    · subst hl
      rw [if_pos rfl, List.mem_singleton.1 hs]
      exact .refl a
    · rw [if_neg hl]
      obtain rfl | hs := List.mem_cons.1 hs
      · exact (contains_append_left _ _).trans (contains_append_left _ _)
      · exact (contains_append_right _ _).trans (ih hs)

theorem toList_joinWith_empty (l : List String) :
    (joinWith "" l).toList = l.flatMap String.toList := by
  induction l with
  | nil => rfl
  | cons a l ih =>
    rw [joinWith_cons, List.flatMap_cons]
    by_cases hl : l = []
    · simp [hl]
    · simp [if_neg hl, ih]

theorem dropLineBreaks_joinWith_empty (l : List String) :
    dropLineBreaks (joinWith "" l) = joinWith "" (l.map dropLineBreaks) := by
  rw [← String.toList_inj, toList_dropLineBreaks, toList_joinWith_empty,
    toList_joinWith_empty, List.filter_flatMap, List.flatMap_map]
  simp only [toList_dropLineBreaks]

theorem joinWith_cons_eq (separator s : String) (l : List String) :
    joinWith separator (s :: l) = s ++ joinWith "" (l.map (separator ++ ·)) := by
  induction l generalizing s with
  | nil => exact String.append_empty.symm
  | cons t l ih =>
    rw [joinWith, ih, List.map_cons, joinWith_cons]
    split_ifs with hl
    · rw [hl, joinWith, String.append_empty, String.append_assoc]
    · rw [String.append_empty, String.append_assoc, String.append_assoc]

theorem appendFragment_eq (sql fragment : String) :
    appendFragment sql fragment = sql ∨ appendFragment sql fragment = sql ++ fragment ∨
      appendFragment sql fragment = sql ++ " " ++ fragment := by
  rw [appendFragment]
  by_cases hempty : fragment = ""
  · exact .inl (if_pos hempty)
  · rw [if_neg hempty]
    by_cases hspace : needsSpace sql fragment = true
    · exact .inr (.inr (if_pos hspace))
    · exact .inr (.inl (if_neg hspace))

theorem contains_appendFragment_left (sql fragment : String) :
    Contains (appendFragment sql fragment) sql := by
  obtain h | h | h := appendFragment_eq sql fragment <;> rw [h]
  · exact .refl sql
  · exact contains_append_left _ _
  · exact (contains_append_left _ _).trans (contains_append_left _ _)

theorem contains_appendFragment_right (sql fragment : String) :
    Contains (appendFragment sql fragment) fragment := by
  rw [appendFragment]
  by_cases hempty : fragment = ""
  · rw [hempty, Contains, String.toList_empty]
    exact List.nil_infix
  · rw [if_neg hempty]
    by_cases hspace : needsSpace sql fragment = true
    · rw [if_pos hspace]
      exact contains_append_right _ _
    · rw [if_neg hspace]
      exact contains_append_right _ _

end SqlComposer.Text
