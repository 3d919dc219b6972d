import SqlComposer.Proofs.Text.Lexer

/-!
# Texts as rows of tokens

What joining and appending texts do to the tokens that spell them once line breaks are dropped.
-/
namespace SqlComposer.Text

/-- Without its line breaks, the text is the spelling of the tokens. -/
def Spelled (s : String) (ts : List Token) : Prop :=
  (dropLineBreaks s).toList = ts.flatMap Token.spell

def words (s : String) : List Token :=
  plain (dropLineBreaks s)

def literals (ts : List Token) : List String :=
  ts.filterMap Token.literal?

variable {s t : String} {ts us : List Token}

theorem spelled_words (s : String) : Spelled s (words s) :=
  (spell_plain _).symm

theorem spelled_quoted (s : String) : Spelled (quoted s) [.literal (dropLineBreaks s)] := by
  rw [Spelled, dropLineBreaks_quoted, quoted_toList, List.flatMap_singleton]

theorem Spelled.append (hs : Spelled s ts) (ht : Spelled t us) : Spelled (s ++ t) (ts ++ us) := by
  rw [Spelled, dropLineBreaks_append, String.toList_append, hs, ht, List.flatMap_append]

theorem Spelled.dropLineBreaks (hs : Spelled s ts) : Spelled (dropLineBreaks s) ts := by
  rwa [Spelled, dropLineBreaks_dropLineBreaks]

theorem Clean.append (hs : Clean s) (ht : Clean t) : Clean (s ++ t) := by
  rw [Clean, String.toList_append]
  exact fun h => (List.mem_append.1 h).elim hs ht

theorem Clean.dropLineBreaks (hs : Clean s) : Clean (dropLineBreaks s) := by
  rw [Clean, toList_dropLineBreaks]
  exact fun h => hs (List.mem_filter.1 h).1

theorem lawful_words (hs : Clean s) : Lawful (words s) :=
  lawful_plain hs.dropLineBreaks

theorem Lawful.words_append (ht : Lawful ts) (hs : Clean s) : Lawful (words s ++ ts) := by
  by_cases hempty : dropLineBreaks s = ""
  · simpa [words, plain, hempty] using ht
  · have h := lawful_nil.append_plain ht hs.dropLineBreaks hempty
    rwa [List.nil_append] at h

theorem Lawful.append_words (ht : Lawful ts) (hs : Clean s) : Lawful (ts ++ words s) := by
  by_cases hempty : dropLineBreaks s = ""
  · simpa [words, plain, hempty] using ht
  · have h := ht.append_plain lawful_nil hs.dropLineBreaks hempty
    rwa [List.append_nil] at h

theorem literals_append (ts us : List Token) :
    literals (ts ++ us) = literals ts ++ literals us :=
  List.filterMap_append

@[simp] theorem literals_plain (s : String) : literals (plain s) = [] := by
  rw [literals, plain, List.filterMap_map]
  exact List.filterMap_eq_nil_iff.2 fun _ _ => rfl

@[simp] theorem literals_words (s : String) : literals (words s) = [] :=
  literals_plain _

def joinTokens (separator : List Token) : List (List Token) → List Token
  | [] => []
  | [ts] => ts
  | ts :: us :: rest => ts ++ separator ++ joinTokens separator (us :: rest)

theorem joinTokens_cons (separator ts : List Token) (rows : List (List Token)) :
    joinTokens separator (ts :: rows) =
      if rows = [] then ts else ts ++ separator ++ joinTokens separator rows := by
  cases rows <;> rfl

theorem spelled_joinWith {α : Type} {text : α → String} {tokens : α → List Token} {l : List α}
    (h : ∀ a ∈ l, Spelled (text a) (tokens a)) (separator : String) :
    Spelled (joinWith separator (l.map text)) (joinTokens (words separator) (l.map tokens)) := by
  induction l with
  | nil => rfl
  | cons a l ih =>
    have hhead := h a List.mem_cons_self
    rw [List.map_cons, List.map_cons, joinWith_cons, joinTokens_cons]
    by_cases hl : l = []
    · simpa [hl] using hhead
    · rw [if_neg (by simpa using hl), if_neg (by simpa using hl)]
      exact (hhead.append (spelled_words _)).append (ih fun b hb => h b (List.mem_cons_of_mem _ hb))

theorem spelled_joinWith_empty {α : Type} {text : α → String} {tokens : α → List Token}
    {l : List α} (h : ∀ a ∈ l, Spelled (text a) (tokens a)) :
    Spelled (joinWith "" (l.map text)) (l.flatMap tokens) := by
  induction l with
  | nil => rfl
  | cons a l ih =>
    have hhead := h a List.mem_cons_self
    have htail := ih fun b hb => h b (List.mem_cons_of_mem _ hb)
    rw [List.map_cons, joinWith_cons, List.flatMap_cons]
    by_cases hl : l = []
    · simpa [hl] using hhead
    · rw [if_neg (by simpa using hl), String.append_empty]
      exact hhead.append htail

theorem lawful_joinTokens {rows : List (List Token)} (h : ∀ ts ∈ rows, Lawful ts)
    {separator : String} (hs : Clean (dropLineBreaks separator))
    (hne : dropLineBreaks separator ≠ "") :
    Lawful (joinTokens (words separator) rows) := by
  induction rows with
  | nil => exact lawful_nil
  | cons ts rows ih =>
    have hhead := h ts List.mem_cons_self
    rw [joinTokens_cons]
    split_ifs
    · exact hhead
    · exact hhead.append_plain (ih fun us hus => h us (List.mem_cons_of_mem _ hus)) hs hne

theorem literals_joinTokens (separator : String) (rows : List (List Token)) :
    literals (joinTokens (words separator) rows) = rows.flatMap literals := by
  induction rows with
  | nil => rfl
  | cons ts rows ih =>
    rw [joinTokens_cons, List.flatMap_cons]
    by_cases hrows : rows = []
    · simp [hrows]
    · simp only [if_neg hrows, literals_append, literals_words, List.append_nil, ih]

theorem map_joinTokens (f : Token → Token) (separator : List Token) (rows : List (List Token)) :
    (joinTokens separator rows).map f =
      joinTokens (separator.map f) (rows.map (List.map f)) := by
  induction rows with
  | nil => rfl
  | cons ts rows ih =>
    rw [List.map_cons, joinTokens_cons, joinTokens_cons]
    by_cases hrows : rows = []
    · simp [hrows]
    · rw [if_neg hrows, if_neg (by simpa using hrows), List.map_append, List.map_append, ih]

namespace Token

def last : Token → Char
  | .char c => c
  | .literal _ => '\''

theorem getLast?_spell (t : Token) : t.spell.getLast? = some t.last := by
  cases t with
  | char => rfl
  | literal s => simp [spell, last, List.getLast?_cons]

theorem last_shape (t : Token) : t.shape.last = t.last := by
  cases t <;> rfl

end Token

def needsSpaceToken (ts us : List Token) : Bool :=
  match ts.getLast? with
  | none => false
  | some t => !isBlank t.last && t.last != '(' && us.head? != some (.char ')')

def appendTokens (ts us : List Token) : List Token :=
  if us = [] then ts
  else if needsSpaceToken ts us then ts ++ .char ' ' :: us
  else ts ++ us

theorem getLast?_flatMap_spell (ts : List Token) :
    (ts.flatMap Token.spell).getLast? = ts.getLast?.map Token.last := by
  induction ts using List.reverseRecOn with
  | nil => rfl
  | append_singleton ts t _ =>
    rw [List.flatMap_append, List.flatMap_singleton,
      List.getLast?_append_of_ne_nil _ t.spell_ne_nil, t.getLast?_spell]
    simp

theorem head?_flatMap_spell (us : List Token) :
    ((us.flatMap Token.spell).head? != some ')') = (us.head? != some (.char ')')) := by
  cases us with
  | nil => rfl
  | cons u us =>
    rw [Bool.eq_iff_iff]
    cases u <;> simp [Token.spell]

theorem needsSpace_eq (hs : s.toList = ts.flatMap Token.spell)
    (ht : t.toList = us.flatMap Token.spell) : needsSpace s t = needsSpaceToken ts us := by
  rw [needsSpace, needsSpaceToken, hs, ht, getLast?_flatMap_spell]
  cases ts.getLast? with
  | none => rfl
  | some u =>
    simp only [Option.map_some, head?_flatMap_spell]

theorem toList_appendFragment (hs : s.toList = ts.flatMap Token.spell)
    (ht : t.toList = us.flatMap Token.spell) :
    (appendFragment s t).toList = (appendTokens ts us).flatMap Token.spell := by
  have hempty : t = "" ↔ us = [] := by
    rw [← String.toList_inj, ht, String.toList_empty]
    cases us with
    | nil => simp
    | cons u us => simp [u.spell_ne_nil]
  rw [appendFragment, appendTokens, needsSpace_eq hs ht]
  by_cases h : t = ""
  · rw [if_pos h, if_pos (hempty.1 h), hs]
  · rw [if_neg h, if_neg fun hus => h (hempty.2 hus)]
    split_ifs
    · simp [String.toList_append, hs, ht, Token.spell]
    · simp [String.toList_append, hs, ht]

/-- An appended fragment brings no two literals together: a space stands between them. -/
theorem lawful_appendTokens (ht : Lawful ts) (hu : Lawful us) : Lawful (appendTokens ts us) := by
  rw [appendTokens]
  split_ifs with hempty hspace
  · exact ht
  · have h := ht.append_plain (s := " ") hu (by decide) (by decide)
    simpa [plain] using h
  · refine ht.append hu fun t hlast u hhead => ?_
    rw [Option.mem_def] at hlast hhead
    rw [needsSpaceToken, hlast] at hspace
    cases t with
    | char => rfl
    | literal =>
      cases u with
      | char => rfl
      | literal =>
        have hblank : isBlank '\'' = false := by decide
        simp [hhead, Token.last, hblank] at hspace

theorem literals_appendTokens (ts us : List Token) :
    literals (appendTokens ts us) = literals ts ++ literals us := by
  rw [appendTokens]
  split_ifs with hempty
  · rw [hempty]
    exact (List.append_nil _).symm
  · exact literals_append ts _
  · exact literals_append ts us

theorem map_shape_appendTokens (ts us : List Token) :
    (appendTokens ts us).map Token.shape =
      appendTokens (ts.map Token.shape) (us.map Token.shape) := by
  have hspace : needsSpaceToken (ts.map Token.shape) (us.map Token.shape) =
      needsSpaceToken ts us := by
    rw [needsSpaceToken, needsSpaceToken, List.getLast?_map, List.head?_map]
    cases ts.getLast? with
    | none => rfl
    | some t =>
      simp only [Option.map_some, Token.last_shape]
      congr 1
      cases us.head? with
      | none => rfl
      | some u => cases u <;> rfl
  rw [appendTokens, appendTokens, hspace]
  by_cases hus : us = []
  · rw [if_pos hus, if_pos (List.map_eq_nil_iff.2 hus)]
  · have hmap : us.map Token.shape ≠ [] := fun h => hus (List.map_eq_nil_iff.1 h)
    rw [if_neg hus, if_neg hmap]
    split_ifs <;> simp [Token.shape]

end SqlComposer.Text
