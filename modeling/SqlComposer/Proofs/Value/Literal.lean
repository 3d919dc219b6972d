import SqlComposer.Dialect
import SqlComposer.Proofs.Text.Spelled

/-!
# Values as tokens

A string, a date or an identifier value is one literal, whatever it says. Numbers and truth values
have no apostrophe in them; decimals and raw text are taken as they are.
-/
namespace SqlComposer

open Text

theorem Text.clean_ofList {cs : List Char} (h : ∀ c ∈ cs, c ≠ '\'') : Clean (String.ofList cs) := by
  rw [Clean, String.toList_ofList]
  exact fun hmem => h _ hmem rfl

theorem Text.quoted_ne_empty (s : String) : quoted s ≠ "" := by
  simp [quoted]

namespace Decimal

theorem ne_apostrophe_of_mem_toDigits {n : Nat} {c : Char} (h : c ∈ Nat.toDigits 10 n) :
    c ≠ '\'' := by
  rintro rfl
  have hdigit := Nat.isDigit_of_mem_toDigits (by decide) (by decide) h
  exact absurd hdigit (by decide)

theorem clean_zeros (n : Nat) : Clean (zeros n) :=
  clean_ofList fun c hc => by
    rw [List.eq_of_mem_replicate hc]
    decide

theorem Layout.clean_positional (l : Layout) {digits : List Char} (h : ∀ c ∈ digits, c ≠ '\'')
    (leading : Int) : Clean (l.positional digits leading) := by
  have htake (n : Nat) : Clean (String.ofList (digits.take n)) :=
    clean_ofList fun c hc => h c (List.mem_of_mem_take hc)
  have hdrop (n : Nat) : Clean (String.ofList (digits.drop n)) :=
    clean_ofList fun c hc => h c (List.mem_of_mem_drop hc)
  simp only [positional]
  by_cases hnegative : leading < 0
  · rw [if_pos hnegative]
    exact (Clean.append (by decide) (clean_zeros _)).append (clean_ofList h)
  rw [if_neg hnegative]
  by_cases hwhole : digits.length ≤ leading.toNat + 1
  · rw [if_pos hwhole]
    exact ((clean_ofList h).append (clean_zeros _)).append (by cases l.wholePoint <;> decide)
  · rw [if_neg hwhole]
    exact ((htake _).append (by decide)).append (hdrop _)

end Decimal

theorem clean_nat (n : Nat) : Clean (toString n) := by
  rw [Nat.toString_eq_repr, Nat.repr_eq_ofList_toDigits]
  exact clean_ofList fun c => Decimal.ne_apostrophe_of_mem_toDigits

namespace Value

theorem clean_intText (n : Int64) : Clean (intText n) := by
  rw [intText]
  cases n.toInt with
  | ofNat m => exact clean_nat m
  | negSucc m => exact Clean.append (s := "-") (by decide) (clean_nat (m + 1))

theorem clean_floatText (x : Float) : Clean (floatLayout.write x) := by
  have hmagnitude : Clean (floatLayout.magnitude x.toBits) := by
    rw [Decimal.Layout.magnitude]
    simp only [floatLayout, if_true]
    split_ifs
    · exact Decimal.Layout.clean_positional _ (fun c hc => by rw [List.mem_singleton.mp hc]; decide) _
    · exact Decimal.Layout.clean_positional _ (fun c => Decimal.ne_apostrophe_of_mem_toDigits) _
  rw [Decimal.Layout.write]
  split_ifs
  · decide
  · decide
  · decide
  · exact Clean.append (by decide) hmagnitude
  · exact Clean.append (by decide) hmagnitude

/-- Only decimals and raw text bring text of their own into a statement outside of literals. -/
def Clean : Value → Prop
  | .decimal s | .raw s => Text.Clean s
  | _ => True

def mapString (f : String → String) : Value → Value
  | .string s => .string (f s)
  | v => v

end Value

def Dialect.quoted? (d : Dialect) : Value → Option String
  | .string s => some s
  | .dateTime t => some (t.text d.timestampSeparator)
  | .date day => some day.text
  | .uuid u => some u.text
  | _ => none

namespace Value

variable {d : Dialect} {declared : Option ColumnType} {v : Value} (f : String → String)

def tokens (d : Dialect) (declared : Option ColumnType) (v : Value) : List Token :=
  match d.quoted? v with
  | some s => [.literal (dropLineBreaks s)]
  | none => words (d.written v declared)

theorem spelled_written (d : Dialect) (declared : Option ColumnType) (v : Value) :
    Spelled (d.written v declared) (v.tokens d declared) := by
  cases v with
  | string | dateTime | date | uuid => exact spelled_quoted _
  | null | bool | int | float | decimal | raw => exact spelled_words _

theorem lawful_tokens (hv : v.Clean) : Lawful (v.tokens d declared) := by
  cases v with
  | string | dateTime | date | uuid => exact lawful_singleton _
  | null => exact lawful_words (show Text.Clean "NULL" by decide)
  | bool b => exact lawful_words (show Text.Clean (Dialect.bitLiteral b) by cases b <;> decide)
  | int n =>
    refine lawful_words ?_
    simp only [Dialect.written, Dialect.literal?]
    split_ifs
    · have hbit (b : Bool) : Text.Clean (Dialect.bitLiteral b) := by cases b <;> decide
      exact hbit _
    · exact clean_intText n
  | float x =>
    refine lawful_words ?_
    simp only [Dialect.written, Dialect.literal?]
    split_ifs
    · exact clean_floatText x
    · exact (by decide : Text.Clean "NULL")
  | decimal | raw => exact lawful_words hv

theorem literals_tokens (d : Dialect) (declared : Option ColumnType) (v : Value) :
    literals (v.tokens d declared) = ((d.quoted? v).map dropLineBreaks).toList := by
  rw [tokens]
  cases d.quoted? v with
  | some => rfl
  | none => exact literals_words _

theorem map_shape_tokens (d : Dialect) (declared : Option ColumnType) (v : Value) :
    ((v.mapString f).tokens d declared).map Token.shape =
      (v.tokens d declared).map Token.shape := by
  cases v <;> rfl

theorem written_mapString_eq_empty (d : Dialect) (declared : Option ColumnType) (v : Value) :
    d.written (v.mapString f) declared = "" ↔ d.written v declared = "" := by
  cases v with
  | string s => exact iff_of_false (quoted_ne_empty (f s)) (quoted_ne_empty s)
  | _ => exact Iff.rfl

theorem clean_mapString (hv : v.Clean) : (v.mapString f).Clean := by
  cases v <;> exact hv

end Value

/-! ## Literals that say nothing -/

theorem Decimal.Layout.positional_ne_empty (l : Layout) {digits : List Char} (h : digits ≠ [])
    (leading : Int) : l.positional digits leading ≠ "" := by
  have hdigits : String.ofList digits ≠ "" := by simpa using h
  simp only [positional]
  split_ifs <;> simp [hdigits]

theorem Value.intText_ne_empty (n : Int64) : intText n ≠ "" := by
  have hsigned (s : String) : "-" ++ s ≠ "" := by simp
  rw [intText]
  cases n.toInt with
  | ofNat m => exact Nat.repr_ne_empty
  | negSucc m => exact hsigned _

theorem Value.floatText_ne_empty (x : Float) : floatLayout.write x ≠ "" := by
  have hmagnitude : floatLayout.magnitude x.toBits ≠ "" := by
    rw [Decimal.Layout.magnitude]
    simp only [floatLayout, if_true]
    split_ifs
    · exact Decimal.Layout.positional_ne_empty _ (List.cons_ne_nil _ _) _
    · exact Decimal.Layout.positional_ne_empty _ Nat.toDigits_ne_nil _
  rw [Decimal.Layout.write]
  split_ifs
  · decide
  · decide
  · decide
  · exact fun h => hmagnitude (String.append_eq_empty_iff.1 h).2
  · exact fun h => hmagnitude (String.append_eq_empty_iff.1 h).2

theorem Dialect.literal?_ne_empty {d : Dialect} {v : Value} {declared : Option ColumnType}
    {text : String} (h : d.literal? v declared = some text) (hv : v ≠ .decimal "") : text ≠ "" := by
  have hbit (b : Bool) : bitLiteral b ≠ "" := by cases b <;> decide
  cases v with
  | null =>
    simp only [literal?, Option.some.injEq] at h
    exact h ▸ by decide
  | bool b =>
    simp only [literal?, Option.some.injEq] at h
    exact h ▸ hbit b
  | int n =>
    rw [literal?] at h
    split_ifs at h <;> rw [← Option.some.inj h]
    · exact hbit _
    · exact Value.intText_ne_empty n
  | float x =>
    rw [literal?] at h
    split_ifs at h <;> rw [← Option.some.inj h]
    · exact Value.floatText_ne_empty x
    · decide
  | decimal s =>
    simp only [literal?, Option.some.injEq] at h
    exact fun hs => hv (congrArg Value.decimal (h.trans hs))
  | string | dateTime | date | uuid =>
    simp only [literal?, Option.some.injEq] at h
    exact h ▸ quoted_ne_empty _
  | raw => cases h

theorem Dialect.literal?_isSome {v : Value} (hv : ∀ s, v ≠ .raw s) (d : Dialect)
    (declared : Option ColumnType) : (d.literal? v declared).isSome := by
  cases v with
  | int | float =>
    rw [literal?]
    split_ifs <;> rfl
  | raw s => exact absurd rfl (hv s)
  | _ => rfl

end SqlComposer
