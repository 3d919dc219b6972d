import SqlComposer.Proofs.Text.Joined

/-!
# Fragments that are left out

A statement becomes shorter when fragments of two or more characters are left out of it. One
character would not be enough, since the fragments around it may then need a space.
-/
namespace SqlComposer.Text

/-- More than one character, so that it cannot pass for the space between two fragments. -/
def IsLong (s : String) : Prop :=
  1 < (dropLineBreaks s).length

instance (s : String) : Decidable (IsLong s) :=
  inferInstanceAs (Decidable (1 < (dropLineBreaks s).length))

def joinFragments (l : List String) : String :=
  l.foldl (fun sql s => appendFragment sql (dropLineBreaks s)) ""

/-- The statement is longer: by one character at least, and by two where the two end differently,
as a fragment behind the shorter one may bring a space with it. -/
structure Exceeds (sql short : String) : Prop where
  lt : short.length < sql.length
  lt_of_ne : sql.toList.getLast? ≠ short.toList.getLast? → short.length + 1 < sql.length

variable {sql short s : String} {α : Type} {keep : α → Bool} {text : α → String} {l : List α}

theorem IsLong.of_contains {t : String} (h : Contains s t) (ht : IsLong t) : IsLong s := by
  have hlength := h.dropLineBreaks.length_le
  rw [String.length_toList, String.length_toList] at hlength
  exact Nat.lt_of_lt_of_le ht hlength

theorem IsLong.ne_empty (h : IsLong s) : s ≠ "" := by
  rintro rfl
  cases h

theorem Exceeds.ne (h : Exceeds sql short) : sql ≠ short := by
  rintro rfl
  exact absurd h.lt (Nat.lt_irrefl _)

theorem joinFragments_singleton (s : String) : joinFragments [s] = dropLineBreaks s := by
  rw [joinFragments, List.foldl_cons, List.foldl_nil, empty_appendFragment]

theorem joinFragments_pair (hopen : IsOpen (dropLineBreaks s)) (t : String) :
    joinFragments [s, t] = dropLineBreaks (s ++ t) := by
  rw [joinFragments, List.foldl_cons, List.foldl_cons, List.foldl_nil, empty_appendFragment,
    hopen.appendFragment_eq, dropLineBreaks_append]

theorem length_appendFragment (sql : String) (hs : s ≠ "") :
    (appendFragment sql s).length = sql.length + (if needsSpace sql s then 1 else 0) + s.length := by
  have hspace : " ".length = 1 := by decide
  rw [appendFragment, if_neg hs]
  split_ifs <;> simp only [String.length_append, hspace, Nat.add_zero]

theorem getLast?_appendFragment (sql : String) (hs : s ≠ "") :
    (appendFragment sql s).toList.getLast? = s.toList.getLast? := by
  have hlast (t : String) : (t ++ s).toList.getLast? = s.toList.getLast? := by
    obtain ⟨c, hc⟩ := Option.ne_none_iff_exists'.1
      (mt List.getLast?_eq_none_iff.1 (mt String.toList_eq_nil_iff.1 hs))
    rw [String.toList_append, List.getLast?_append, hc, Option.some_or]
  rw [appendFragment, if_neg hs]
  split_ifs <;> exact hlast _

theorem Exceeds.append (h : Exceeds sql short) (s : String) :
    Exceeds (appendFragment sql s) (appendFragment short s) := by
  by_cases hs : s = ""
  · rwa [hs, appendFragment, appendFragment, if_pos rfl, if_pos rfl]
  · have hends : (appendFragment sql s).toList.getLast? = (appendFragment short s).toList.getLast? := by
      rw [getLast?_appendFragment sql hs, getLast?_appendFragment short hs]
    refine ⟨?_, fun hne => absurd hends hne⟩
    rw [length_appendFragment sql hs, length_appendFragment short hs]
    by_cases hlast : sql.toList.getLast? = short.toList.getLast?
    · have hspace : needsSpace sql s = needsSpace short s := by rw [needsSpace, hlast, needsSpace]
      have hlt := h.lt
      rw [hspace]
      omega
    · have hlt := h.lt_of_ne hlast
      split_ifs <;> omega

theorem Exceeds.insert (h : sql = short ∨ Exceeds sql short) (hs : 1 < s.length) :
    Exceeds (appendFragment sql s) short := by
  have hne : s ≠ "" := by
    rintro rfl
    cases hs
  have hle : short.length ≤ sql.length := by
    rcases h with rfl | h
    · exact Nat.le_refl _
    · exact Nat.le_of_lt h.lt
  have hlength := length_appendFragment sql hne
  refine ⟨?_, fun _ => ?_⟩ <;> omega

theorem appendFragment_dropLineBreaks_empty (sql : String) :
    appendFragment sql (dropLineBreaks "") = sql := rfl

theorem foldl_filter_eq (h : ∀ a ∈ l, keep a = true ∨ text a = "") (sql : String) :
    (l.filter keep).foldl (fun sql a => appendFragment sql (dropLineBreaks (text a))) sql =
      l.foldl (fun sql a => appendFragment sql (dropLineBreaks (text a))) sql := by
  induction l generalizing sql with
  | nil => rfl
  | cons a l ih =>
    rw [List.forall_mem_cons] at h
    cases ha : keep a with
    | true =>
      rw [List.filter_cons_of_pos ha, List.foldl_cons, List.foldl_cons]
      exact ih h.2 _
    | false =>
      have hempty : text a = "" := h.1.resolve_left (by simp [ha])
      rw [List.filter_cons_of_neg (by simp [ha]), List.foldl_cons, hempty,
        appendFragment_dropLineBreaks_empty]
      exact ih h.2 sql

theorem foldl_filter_exceeds
    (hl : ∀ a ∈ l, keep a = true ∨ text a = "" ∨ IsLong (text a))
    (h : sql = short ∨ Exceeds sql short)
    (hleft : Exceeds sql short ∨ ∃ a ∈ l, ¬(keep a = true ∨ text a = "")) :
    Exceeds (l.foldl (fun sql a => appendFragment sql (dropLineBreaks (text a))) sql)
      ((l.filter keep).foldl (fun sql a => appendFragment sql (dropLineBreaks (text a))) short) := by
  induction l generalizing sql short with
  | nil => exact hleft.resolve_right fun ⟨_, ha, _⟩ => nomatch ha
  | cons a l ih =>
    rw [List.forall_mem_cons] at hl
    simp only [List.exists_mem_cons_iff] at hleft
    by_cases ha : keep a = true ∨ text a = ""
    · have hrest := hleft.imp_right fun hmem => hmem.resolve_left (not_not_intro ha)
      cases hkeep : keep a with
      | true =>
        rw [List.filter_cons_of_pos hkeep, List.foldl_cons, List.foldl_cons]
        exact ih hl.2 (h.imp (fun heq => by rw [heq]) (·.append _)) (hrest.imp_left (·.append _))
      | false =>
        have hempty : text a = "" := ha.resolve_left (by simp [hkeep])
        rw [List.filter_cons_of_neg (by simp [hkeep]), List.foldl_cons, hempty,
          appendFragment_dropLineBreaks_empty]
        exact ih hl.2 h hrest
    · obtain ⟨hkeep, hne⟩ := not_or.1 ha
      have hinsert := Exceeds.insert h ((hl.1.resolve_left hkeep).resolve_left hne)
      rw [List.filter_cons_of_neg hkeep, List.foldl_cons]
      exact ih hl.2 (.inr hinsert) (.inl hinsert)

/-- A statement is what some of its fragments make only if the others say nothing. -/
theorem joinFragments_filter_iff
    (hl : ∀ a ∈ l, keep a = true ∨ text a = "" ∨ IsLong (text a)) :
    joinFragments (l.map text) = joinFragments ((l.filter keep).map text) ↔
      ∀ a ∈ l, keep a = true ∨ text a = "" := by
  rw [joinFragments, joinFragments, List.foldl_map, List.foldl_map]
  refine ⟨fun heq => ?_, fun hall => (foldl_filter_eq hall "").symm⟩
  by_contra hnot
  push Not at hnot
  obtain ⟨a, ha, hleft⟩ := hnot
  exact (foldl_filter_exceeds hl (.inl (Eq.refl "")) (.inr ⟨a, ha, not_or.2 hleft⟩)).ne heq

end SqlComposer.Text
