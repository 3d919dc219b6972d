import SqlComposer.Proofs.Text

/-!
# Fragments that join without a space

Behind a blank or an opening bracket any fragment goes on directly, and a closing bracket goes on
behind anything.
-/
namespace SqlComposer.Text

def OneLine (s : String) : Prop :=
  ∀ c ∈ s.toList, isLineBreak c = false

instance : DecidablePred OneLine :=
  fun s => List.decidableBAll (fun c => isLineBreak c = false) s.toList

def IsOpen (s : String) : Prop :=
  ∀ fragment, needsSpace s fragment = false

variable {s t : String}

theorem OneLine.dropLineBreaks_eq (h : OneLine s) : dropLineBreaks s = s := by
  rw [← String.toList_inj, toList_dropLineBreaks, List.filter_eq_self]
  intro c hc
  rw [h c hc]
  rfl

theorem OneLine.append (hs : OneLine s) (ht : OneLine t) : OneLine (s ++ t) := by
  intro c hc
  rw [String.toList_append, List.mem_append] at hc
  exact hc.elim (hs c) (ht c)

theorem OneLine.joinWith {separator : String} (hseparator : OneLine separator) {l : List String}
    (hl : ∀ s ∈ l, OneLine s) : OneLine (joinWith separator l) := by
  induction l with
  | nil => exact fun c hc => by cases hc
  | cons s l ih =>
    rw [List.forall_mem_cons] at hl
    rw [joinWith_cons]
    split_ifs
    · exact hl.1
    · exact (hl.1.append hseparator).append (ih hl.2)

theorem isOpen_of_getLast? {c : Char} (hs : s.toList.getLast? = some c)
    (hc : isBlank c = true ∨ c = '(') : IsOpen s := by
  intro fragment
  rw [needsSpace, hs]
  rcases hc with hc | rfl
  · simp [hc]
  · simp

theorem isOpen_append {c : Char} (ht : t.toList.getLast? = some c)
    (hc : isBlank c = true ∨ c = '(') : IsOpen (s ++ t) := by
  refine isOpen_of_getLast? ?_ hc
  rw [String.toList_append, List.getLast?_append, ht, Option.some_or]

theorem IsOpen.appendFragment_eq (hs : IsOpen s) (t : String) : appendFragment s t = s ++ t := by
  rw [appendFragment, hs t, if_neg Bool.false_ne_true]
  split_ifs with ht
  · rw [ht, String.append_empty]
  · rfl

theorem isOpen_appendFragment {c : Char} (ht : t.toList.getLast? = some c)
    (hc : isBlank c = true ∨ c = '(') : IsOpen (appendFragment s t) := by
  have hne : t ≠ "" := by
    rintro rfl
    cases ht
  rw [appendFragment, if_neg hne]
  split_ifs <;> exact isOpen_append ht hc

theorem appendFragment_bracket (s : String) : appendFragment s ")" = s ++ ")" := by
  have hspace : needsSpace s ")" = false := by
    rw [needsSpace]
    cases s.toList.getLast? <;> simp
  rw [appendFragment, hspace]
  rfl

def gapBehind (s : String) : String :=
  match s.toList.getLast? with
  | some c => if isBlank c || c == '(' then "" else " "
  | none => ""

theorem gapBehind_of_getLast? {c : Char} (hs : s.toList.getLast? = some c) :
    gapBehind s = if isBlank c || c == '(' then "" else " " := by
  rw [gapBehind, hs]

theorem gapBehind_append (hs : gapBehind s = "") (t : String) :
    gapBehind (s ++ t) = gapBehind t := by
  rw [gapBehind, String.toList_append, List.getLast?_append]
  cases ht : t.toList.getLast? with
  | none =>
    rw [gapBehind] at hs
    rw [gapBehind, ht]
    exact hs
  | some c => exact (gapBehind_of_getLast? ht).symm

theorem gapBehind_eq_or (s : String) : gapBehind s = "" ∨ gapBehind s = " " := by
  rw [gapBehind]
  cases s.toList.getLast? with
  | none => exact .inl rfl
  | some c =>
    simp only
    split_ifs
    · exact .inl rfl
    · exact .inr rfl

theorem dropLineBreaks_gapBehind (s : String) : dropLineBreaks (gapBehind s) = gapBehind s := by
  obtain h | h := gapBehind_eq_or s <;> rw [h] <;> decide

theorem appendFragment_word {c : Char} (ht : t.toList.head? = some c) (hc : c ≠ ')') :
    appendFragment s t = s ++ gapBehind s ++ t := by
  have hne : t ≠ "" := by
    rintro rfl
    cases ht
  have hspace : needsSpace s t = (gapBehind s == " ") := by
    rw [needsSpace, gapBehind]
    cases s.toList.getLast? with
    | none => rfl
    | some last => cases hblank : isBlank last <;> by_cases hlast : last = '(' <;> simp [*]
  rw [appendFragment, if_neg hne, hspace]
  obtain h | h := gapBehind_eq_or s <;> simp [h]

theorem empty_appendFragment (t : String) : appendFragment "" t = t := by
  rw [appendFragment]
  split_ifs with ht hspace
  · exact ht.symm
  · cases hspace
  · exact String.empty_append

end SqlComposer.Text
