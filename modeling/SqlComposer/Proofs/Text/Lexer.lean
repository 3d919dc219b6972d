import SqlComposer.Proofs.Text
import SqlComposer.Text
import Mathlib.Data.List.Chain

/-!
# String literals in a text

A lexer that takes a doubled apostrophe inside a literal for an apostrophe. Tokens that are spelled
out are read back, if no literal touches another one and no other token is an apostrophe, and a text
is the spelling of whatever tokens are read from it.
-/
namespace SqlComposer.Text

inductive Token where
  | char (c : Char)
  | literal (s : String)
  deriving DecidableEq, Repr

/-- Where the lexer is: the characters of a literal are kept latest first. -/
inductive Mode where
  | outside
  | inside (read : List Char)
  /-- behind an apostrophe, which ends the literal unless another one follows -/
  | closing (read : List Char)

def lexFrom : Mode → List Char → Option (List Token)
  | .outside, [] => some []
  | .outside, c :: cs =>
    if c = '\'' then lexFrom (.inside []) cs else (lexFrom .outside cs).map (.char c :: ·)
  | .inside _, [] => none
  | .inside read, c :: cs =>
    if c = '\'' then lexFrom (.closing read) cs else lexFrom (.inside (c :: read)) cs
  | .closing read, [] => some [.literal (String.ofList read.reverse)]
  | .closing read, c :: cs =>
    if c = '\'' then lexFrom (.inside ('\'' :: read)) cs
    else (lexFrom .outside cs).map fun ts =>
      .literal (String.ofList read.reverse) :: .char c :: ts

def lex (s : String) : Option (List Token) :=
  lexFrom .outside s.toList

namespace Token

def spell : Token → List Char
  | .char c => [c]
  | .literal s => '\'' :: (doubled s.toList ++ ['\''])

def isLiteral : Token → Bool
  | .char _ => false
  | .literal _ => true

def literal? : Token → Option String
  | .char _ => none
  | .literal s => some s

def shape : Token → Token
  | .char c => .char c
  | .literal _ => .literal ""

theorem spell_ne_nil (t : Token) : t.spell ≠ [] := by
  cases t <;> simp [spell]

end Token

def plain (s : String) : List Token :=
  s.toList.map .char

def Clean (s : String) : Prop :=
  '\'' ∉ s.toList

instance (s : String) : Decidable (Clean s) :=
  inferInstanceAs (Decidable ('\'' ∉ s.toList))

/-- Neither an apostrophe nor a line break is in the text, so that quoting leaves it as it is. -/
def Inert (s : String) : Prop :=
  ∀ c ∈ s.toList, c ≠ '\'' ∧ isLineBreak c = false

instance : DecidablePred Inert :=
  fun s => List.decidableBAll (fun c => c ≠ '\'' ∧ isLineBreak c = false) s.toList

theorem Inert.append {s t : String} (hs : Inert s) (ht : Inert t) : Inert (s ++ t) := by
  intro c hc
  rw [String.toList_append, List.mem_append] at hc
  exact hc.elim (hs c) (ht c)

/-- No literal touches another one, and no other token is an apostrophe. -/
structure Lawful (ts : List Token) : Prop where
  clean : .char '\'' ∉ ts
  apart : ts.IsChain fun t u => (t.isLiteral && u.isLiteral) = false

theorem spell_plain (s : String) : (plain s).flatMap Token.spell = s.toList := by
  rw [plain, List.flatMap_map]
  exact List.flatMap_singleton' _

theorem doubled_of_notMem {cs : List Char} (h : '\'' ∉ cs) : doubled cs = cs := by
  induction cs with
  | nil => rfl
  | cons c cs ih =>
    rw [List.mem_cons, not_or] at h
    rw [doubled, if_neg (Ne.symm h.1), ih h.2]

theorem doubled_append (cs ds : List Char) : doubled (cs ++ ds) = doubled cs ++ doubled ds := by
  induction cs with
  | nil => rfl
  | cons c cs ih => by_cases hc : c = '\'' <;> simp [doubled, hc, ih]

theorem length_doubled (cs : List Char) : (doubled cs).length = cs.length + cs.count '\'' := by
  induction cs with
  | nil => rfl
  | cons c cs ih =>
    by_cases hc : c = '\''
    · simp [doubled, hc, ih]
      omega
    · simp [doubled, hc, ih]
      omega

theorem lexFrom_doubled (read cs rest : List Char) :
    lexFrom (.inside read) (doubled cs ++ '\'' :: rest) =
      lexFrom (.closing (cs.reverse ++ read)) rest := by
  induction cs generalizing read with
  | nil => simp [doubled, lexFrom]
  | cons c cs ih =>
    rw [List.reverse_cons, List.append_assoc, List.singleton_append]
    by_cases hc : c = '\''
    · rw [doubled, if_pos hc, List.cons_append, List.cons_append, lexFrom, if_pos rfl, lexFrom,
        if_pos rfl, ih, hc]
    · rw [doubled, if_neg hc, List.cons_append, lexFrom, if_neg hc, ih]

theorem lexFrom_closing (s : String) {cs : List Char} (hcs : cs.head? ≠ some '\'') :
    lexFrom (.closing (s.toList.reverse ++ [])) cs =
      (lexFrom .outside cs).map (.literal s :: ·) := by
  cases cs with
  | nil => simp [lexFrom]
  | cons c cs =>
    have hc : c ≠ '\'' := fun h => hcs (congrArg some h)
    rw [lexFrom, if_neg hc, lexFrom, if_neg hc]
    simp [Function.comp_def]

theorem Lawful.of_cons {t : Token} {ts : List Token} (h : Lawful (t :: ts)) : Lawful ts :=
  ⟨fun hmem => h.clean (List.mem_cons_of_mem _ hmem), h.apart.tail⟩

theorem Lawful.head?_spell {s : String} {ts : List Token} (h : Lawful (.literal s :: ts)) :
    (ts.flatMap Token.spell).head? ≠ some '\'' := by
  cases ts with
  | nil => nofun
  | cons t ts =>
    cases t with
    | char c =>
      rintro hc
      have hc' : c = '\'' := by simpa [Token.spell] using hc
      exact h.clean (by simp [hc'])
    | literal => simpa [Token.isLiteral] using h.apart

/-- Lawful tokens are read back from their spelling. -/
theorem lexFrom_spell {ts : List Token} (h : Lawful ts) :
    lexFrom .outside (ts.flatMap Token.spell) = some ts := by
  induction ts with
  | nil => rfl
  | cons t ts ih =>
    have hrest := ih h.of_cons
    rw [List.flatMap_cons]
    cases t with
    | char c =>
      have hc : c ≠ '\'' := fun hc => h.clean (by simp [hc])
      rw [Token.spell, List.singleton_append, lexFrom, if_neg hc, hrest]
      rfl
    | literal s =>
      rw [Token.spell, List.cons_append, List.append_assoc, lexFrom, if_pos rfl,
        List.singleton_append, lexFrom_doubled, lexFrom_closing s h.head?_spell, hrest]
      rfl

theorem lex_of_spell {s : String} {ts : List Token} (hs : s.toList = ts.flatMap Token.spell)
    (h : Lawful ts) : lex s = some ts := by
  rw [lex, hs, lexFrom_spell h]

def Mode.pending : Mode → List Char
  | .outside => []
  | .inside read => '\'' :: doubled read.reverse
  | .closing read => '\'' :: (doubled read.reverse ++ ['\''])

/-- Whatever tokens are read, they spell the text. -/
theorem spell_of_lexFrom {mode : Mode} {cs : List Char} {ts : List Token}
    (h : lexFrom mode cs = some ts) : ts.flatMap Token.spell = mode.pending ++ cs := by
  fun_induction lexFrom mode cs generalizing ts with
  | case1 =>
    cases h
    rfl
  | case2 cs ih => simpa [Mode.pending, doubled] using ih h
  | case3 c cs hc ih =>
    obtain ⟨us, hus, rfl⟩ := Option.map_eq_some_iff.1 h
    simp [Token.spell, Mode.pending, ih hus]
  | case4 => cases h
  | case5 read cs ih => simpa [Mode.pending] using ih h
  | case6 read c cs hc ih => simpa [Mode.pending, doubled_append, doubled, hc] using ih h
  | case7 read =>
    cases h
    simp [Token.spell, Mode.pending]
  | case8 read cs ih => simpa [Mode.pending, doubled_append, doubled] using ih h
  | case9 read c cs hc ih =>
    obtain ⟨us, hus, rfl⟩ := Option.map_eq_some_iff.1 h
    simp [Token.spell, Mode.pending, ih hus]

theorem lex_eq_some_iff {s : String} {ts : List Token} (h : Lawful ts) :
    lex s = some ts ↔ s.toList = ts.flatMap Token.spell :=
  ⟨fun hs => (spell_of_lexFrom hs).symm, fun hs => lex_of_spell hs h⟩

theorem lawful_nil : Lawful [] :=
  ⟨nofun, .nil⟩

theorem lawful_singleton (s : String) : Lawful [.literal s] :=
  ⟨by simp, .singleton _⟩

theorem lawful_plain {s : String} (hs : Clean s) : Lawful (plain s) := by
  constructor
  · intro h
    obtain ⟨c, hc, hchar⟩ := List.mem_map.1 h
    exact hs (Token.char.inj hchar ▸ hc)
  · rw [plain, List.isChain_map]
    exact (List.pairwise_of_forall fun _ _ => rfl).isChain

theorem Lawful.append {ts us : List Token} (ht : Lawful ts) (hu : Lawful us)
    (hmeet : ∀ t ∈ ts.getLast?, ∀ u ∈ us.head?, (t.isLiteral && u.isLiteral) = false) :
    Lawful (ts ++ us) :=
  ⟨fun h => (List.mem_append.1 h).elim ht.clean hu.clean,
    List.isChain_append.2 ⟨ht.apart, hu.apart, hmeet⟩⟩

theorem Lawful.append_plain {ts us : List Token} {s : String} (ht : Lawful ts) (hu : Lawful us)
    (hs : Clean s) (hne : s ≠ "") : Lawful (ts ++ plain s ++ us) := by
  have hchar : ∀ t ∈ plain s, t.isLiteral = false := fun t h => by
    obtain ⟨c, -, rfl⟩ := List.mem_map.1 h
    rfl
  have hplain : plain s ≠ [] := by simpa [plain] using hne
  refine (ht.append (lawful_plain hs) fun t _ u hu => ?_).append hu fun t ht u _ => ?_
  · rw [hchar u (List.mem_of_mem_head? hu), Bool.and_false]
  · rw [List.getLast?_append_of_ne_nil _ hplain] at ht
    rw [hchar t (List.mem_of_mem_getLast? ht), Bool.false_and]

theorem quoted_toList (s : String) : (quoted s).toList = Token.spell (.literal s) :=
  String.toList_ofList

theorem lex_quoted (s : String) : lex (quoted s) = some [.literal s] :=
  lex_of_spell (by simp [quoted_toList]) (lawful_singleton s)

theorem doubled_filter (cs : List Char) :
    (doubled cs).filter (fun c => !isLineBreak c) =
      doubled (cs.filter fun c => !isLineBreak c) := by
  have hapostrophe : isLineBreak '\'' = false := rfl
  induction cs with
  | nil => rfl
  | cons c cs ih =>
    by_cases hc : c = '\''
    · subst hc
      simp only [doubled, if_true, List.filter_cons, hapostrophe, Bool.not_false, ih]
    · by_cases hbreak : isLineBreak c = true
      · simp [doubled, hc, hbreak, ih]
      · simp [doubled, hc, hbreak, ih]

theorem dropLineBreaks_quoted (s : String) :
    dropLineBreaks (quoted s) = quoted (dropLineBreaks s) := by
  rw [← String.toList_inj, toList_dropLineBreaks, quoted_toList, quoted_toList, Token.spell,
    Token.spell, toList_dropLineBreaks, ← doubled_filter]
  simp [isLineBreak]

theorem length_dropLineBreaks_le_doubled (s : String) :
    (dropLineBreaks s).toList.length ≤ (doubled s.toList).length := by
  rw [toList_dropLineBreaks, length_doubled]
  exact Nat.le_add_right_of_le (List.length_filter_le _ _)

theorem toList_dropLineBreaks_eq_doubled_iff {s : String} :
    (dropLineBreaks s).toList = doubled s.toList ↔ Inert s := by
  rw [toList_dropLineBreaks]
  constructor
  · intro h c hc
    -- dropping makes the text no longer and doubling makes it no shorter
    have hlength := congrArg List.length h
    have hle := s.toList.length_filter_le fun c => !isLineBreak c
    rw [length_doubled] at hlength
    have hcount : s.toList.count '\'' = 0 := by omega
    have hkept : (s.toList.filter fun c => !isLineBreak c).length = s.toList.length := by omega
    rw [List.length_filter_eq_length_iff] at hkept
    refine ⟨?_, by simpa using hkept c hc⟩
    rintro rfl
    exact List.count_eq_zero.1 hcount hc
  · intro h
    have hkept : (s.toList.filter fun c => !isLineBreak c) = s.toList :=
      List.filter_eq_self.2 fun c hc => by simp [(h c hc).2]
    rw [hkept, doubled_of_notMem fun hmem => (h _ hmem).1 rfl]

end SqlComposer.Text
