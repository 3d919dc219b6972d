import SqlComposer.Proofs.Text.Joined
import SqlComposer.Proofs.Text.Spelled

/-!
# Literals read back

A literal is read back by removing its outer apostrophes and undoubling the inner ones. Every text
that is quoted is read back, and no other text has a reading.
-/
namespace SqlComposer.Text

/-- The text inside a literal, in which no apostrophe may stand alone. -/
def undoubled? : List Char → Option (List Char)
  | [] => some []
  | '\'' :: '\'' :: cs => (undoubled? cs).map ('\'' :: ·)
  | c :: cs => if c = '\'' then none else (undoubled? cs).map (c :: ·)

def unquoted? : List Char → Option String
  | [] => none
  | c :: cs =>
    if c = '\'' ∧ cs.getLast? = some '\'' then (undoubled? cs.dropLast).map String.ofList else none

theorem undoubled?_doubled (cs : List Char) : undoubled? (doubled cs) = some cs := by
  induction cs with
  | nil => rfl
  | cons c cs ih =>
    by_cases hc : c = '\''
    · rw [doubled, if_pos hc, undoubled?, ih, hc]
      rfl
    · rw [doubled, if_neg hc, undoubled?, if_neg hc, ih]
      · rfl
      · exact fun _ h => absurd h hc

theorem eq_doubled_of_undoubled? {ds cs : List Char} (h : undoubled? ds = some cs) :
    ds = doubled cs := by
  fun_induction undoubled? ds generalizing cs with
  | case1 =>
    cases h
    rfl
  | case2 ds ih =>
    obtain ⟨cs, hcs, rfl⟩ := Option.map_eq_some_iff.1 h
    rw [ih hcs, doubled, if_pos rfl]
  | case3 => cases h
  | case4 c ds _ hc ih =>
    obtain ⟨cs, hcs, rfl⟩ := Option.map_eq_some_iff.1 h
    rw [ih hcs, doubled, if_neg hc]

/-- Only the quoted text is read back as the text. -/
theorem unquoted?_eq_some_iff {ds : List Char} {s : String} :
    unquoted? ds = some s ↔ ds = (quoted s).toList := by
  rw [quoted_toList, Token.spell]
  constructor
  · intro h
    cases ds with
    | nil => cases h
    | cons c ds =>
      rw [unquoted?] at h
      split_ifs at h with hquotes
      obtain ⟨cs, hcs, rfl⟩ := Option.map_eq_some_iff.1 h
      have hlast := List.dropLast_append_getLast? '\'' hquotes.2
      rw [hquotes.1, ← hlast, eq_doubled_of_undoubled? hcs, String.toList_ofList]
  · rintro rfl
    rw [unquoted?, if_pos ⟨rfl, List.getLast?_concat⟩, List.dropLast_concat, undoubled?_doubled,
      Option.map_some, String.ofList_toList]

theorem unquoted?_quoted (s : String) : unquoted? (quoted s).toList = some s :=
  unquoted?_eq_some_iff.2 rfl

theorem filter_isLiteral (ts : List Token) :
    ts.filter Token.isLiteral = (literals ts).map .literal := by
  induction ts with
  | nil => rfl
  | cons t ts ih =>
    cases t with
    | char => exact ih
    | literal s => exact congrArg (Token.literal s :: ·) ih

end SqlComposer.Text
