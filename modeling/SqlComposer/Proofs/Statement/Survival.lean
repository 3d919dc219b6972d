import SqlComposer.Proofs.Statement.Outlined
import SqlComposer.Proofs.Text.Unquoted
import Mathlib.Data.List.ReduceOption

/-!
# Strings survive into a statement

A string that is bound into a statement stands in it as one literal. Read back, that literal says
the string without its line breaks, which no statement has, and all else that the string says.
-/
namespace SqlComposer

open Text

/-- What stands at the literals of some values: a string that is bound, or a date or identifier. -/
def Dialect.slots (d : Dialect) (values : List Value) : List (Option String) :=
  values.filterMap fun v => (d.quoted? v).map fun _ => v.string?

namespace Dialect

variable {d : Dialect}

theorem slots_cons (v : Value) (values : List Value) :
    d.slots (v :: values) = ((d.quoted? v).map fun _ => v.string?).toList ++ d.slots values := by
  cases h : d.quoted? v <;> simp [slots, h]

theorem quotedTexts_cons (v : Value) (values : List Value) :
    d.quotedTexts (v :: values) =
      ((d.quoted? v).map dropLineBreaks).toList ++ d.quotedTexts values := by
  cases h : d.quoted? v <;> simp [quotedTexts, h]

theorem reduceOption_slots (values : List Value) :
    (d.slots values).reduceOption = values.filterMap Value.string? := by
  rw [slots, List.reduceOption, List.filterMap_filterMap]
  refine List.filterMap_congr fun v _ => ?_
  cases v <;> rfl

theorem forall₂_slots (g : String → String) (values : List Value) :
    List.Forall₂ (fun slot text => ∀ s ∈ slot, text = dropLineBreaks (g s)) (d.slots values)
      (d.quotedTexts (values.map (Value.mapString g))) := by
  induction values with
  | nil => exact .nil
  | cons v values ih =>
    rw [List.map_cons, slots_cons, quotedTexts_cons]
    refine List.rel_append ?_ ih
    cases v with
    | string s =>
      refine .cons (fun s' hs' => ?_) .nil
      rw [Option.mem_some_iff.1 hs']
    | dateTime | date | uuid => exact .cons (fun s' hs' => nomatch hs') .nil
    | null | bool | int | float | decimal | raw => exact .nil

end Dialect

/-- A statement into which strings are filled, its own strings only saying which one goes where, has
a slot for each of them, and whatever is filled in, the literal in that slot is read back as it. Only
line breaks are gone: what has none is read back as it is. -/
theorem strings_read_back (c : Compiler) (template : Statement) {f : String → String}
    {compiled : Compiled} (h : ((template.mapStrings f).compile c).outcome = .ok compiled) :
    ∃ (shape : List Token) (slots : List (Option String)),
      slots.reduceOption.Perm template.strings ∧ ∀ g : String → String, ∃ filled ts,
        ((template.mapStrings g).compile c).outcome = .ok filled ∧
        filled.sql.toList = ts.flatMap Token.spell ∧ ts.map Token.shape = shape ∧
        (template.Clean → lex filled.sql = some ts) ∧
        List.Forall₂ (fun slot t => ∀ s ∈ slot,
          unquoted? (Token.spell t) = some (dropLineBreaks (g s)) ∧
            (OneLine (g s) → unquoted? (Token.spell t) = some (g s)))
          slots (ts.filter Token.isLiteral) := by
  -- a refused template is refused with every filling, the given one among them
  obtain hrefused | ⟨s, hs⟩ := template.refused_or_outlined c
  · have hnone := hrefused f
    rw [Rendering.result?_eq_some.2 h] at hnone
    cases hnone
  have hsettled := hs.binds.settled
  refine ⟨(s.tokens (s.view c)).map Token.shape, c.dialect.slots s.values, ?_, fun g => ?_⟩
  · rw [Dialect.reduceOption_slots, Outline.filterMap_values]
    exact hs.binds.perm
  have hsettled' := Outline.settled_mapStrings g hsettled
  refine ⟨(s.mapStrings g).compiled c, _, Rendering.result?_eq_some.1 (hs.compiles g),
    Outline.toList_sql hsettled' c, ?_, fun ht => Outline.lex_sql ((hs.clean ht).mapStrings g) c, ?_⟩
  · rw [Outline.view_mapStrings, Outline.shape_tokens g hsettled]
  · rw [filter_isLiteral, Outline.literals_tokens hsettled', Outline.values_mapStrings,
      List.forall₂_map_right_iff]
    refine (Dialect.forall₂_slots g s.values).imp fun slot text hslot string hstring => ?_
    have hread : unquoted? (Token.spell (.literal text)) = some (dropLineBreaks (g string)) := by
      rw [hslot string hstring, ← quoted_toList, unquoted?_quoted]
    exact ⟨hread, fun hline => by rw [hread, hline.dropLineBreaks_eq]⟩

/-- Strings of tabs, apostrophes and line breaks in one restriction of a query. -/
theorem strings_read_back_restriction :
    let note : Entity := ⟨"Note", [⟨"Id", .int, false⟩, ⟨"Body", .string, true⟩]⟩
    let template : Statement := .select (.from note)
      [.filter (.equals (.col "Body") (.constant (.string "one"))), .orderBy .ascending (.col "Id"),
        .orFilter (.equals (.col "Body") (.constant (.string "two")))] none
    let filling (label : String) : String := if label = "one" then "''\t' --" else "it\r\n's \x00"
    ∃ filled ts, ((template.mapStrings filling).compile {}).outcome = .ok filled ∧
      lex filled.sql = some ts ∧ (∃ t ∈ ts, unquoted? t.spell = some "''\t' --") ∧
      ∃ t ∈ ts, unquoted? t.spell = some "it's \x00" := by
  intro note template filling
  have hnote : note.Clean := ⟨by decide, by decide⟩
  have hcol (name : String) (hname : Text.Clean name) : (Expr.col name).Clean :=
    ⟨nofun, nofun, hname⟩
  have hbody := hcol "Body" (by decide)
  have hclean : template.Clean := by
    refine ⟨⟨hnote, nofun⟩, fun call hcall => ?_, nofun⟩
    obtain rfl | hcall := List.mem_cons.1 hcall
    · exact ⟨hbody, trivial⟩
    obtain rfl | rfl := List.mem_pair.1 hcall
    · exact hcol "Id" (by decide)
    · exact ⟨hbody, trivial⟩
  have hcompiles : ((template.mapStrings id).compile {}).result?.isSome = true := by
    decide +kernel
  obtain ⟨plain, hplain⟩ := Option.isSome_iff_exists.1 hcompiles
  obtain ⟨shape, slots, hslots, hall⟩ :=
    strings_read_back {} template (Rendering.result?_eq_some.1 hplain)
  obtain ⟨filled, ts, hfilled, -, -, hlex, hread⟩ := hall filling
  have hsays (s text : String) (hs : s ∈ template.strings)
      (htext : dropLineBreaks (filling s) = text) :
      ∃ t ∈ ts, unquoted? (Token.spell t) = some text := by
    subst htext
    have hslot : some s ∈ slots := List.reduceOption_mem_iff.1 (hslots.mem_iff.2 hs)
    obtain ⟨i, hi, hget⟩ := List.getElem_of_mem hslot
    obtain ⟨hlength, hreads⟩ := List.forall₂_iff_get.1 hread
    have hliteral := List.getElem_mem (hlength ▸ hi)
    exact ⟨_, (List.mem_filter.1 hliteral).1, (hreads i hi (hlength ▸ hi) s hget).1⟩
  exact ⟨filled, ts, hfilled, hlex hclean, hsays "one" _ (by decide +kernel) (by decide +kernel),
    hsays "two" _ (by decide +kernel) (by decide +kernel)⟩

/-- A line break in a string is not read back. -/
theorem literal_without_line_break :
    ∃ compiled ts,
      ((Statement.insert ⟨"AuditLog", [⟨"Message", .string, true⟩]⟩ [.string "a\nb"] []).compile
        {}).outcome = .ok compiled ∧
      compiled.sql = "INSERT INTO AuditLog (Message) VALUES ('ab')" ∧ lex compiled.sql = some ts ∧
      (ts.filter Token.isLiteral).map (fun t => unquoted? t.spell) = [some "ab"] ∧
      "ab" ≠ "a\nb" := by
  let t : Statement := .insert ⟨"AuditLog", [⟨"Message", .string, true⟩]⟩ [.string "a\nb"] []
  let sql := "INSERT INTO AuditLog (Message) VALUES ('ab')"
  have hsql : (t.compile {}).result?.map Compiled.sql = some sql := by decide +kernel
  have hlex : (lex sql).isSome = true := by decide +kernel
  obtain ⟨compiled, hcompiled, hsql⟩ := Option.map_eq_some_iff.1 hsql
  obtain ⟨ts, hts⟩ := Option.isSome_iff_exists.1 hlex
  have hread : (lex sql).map (fun ts =>
      (ts.filter Token.isLiteral).map fun t => unquoted? t.spell) = some [some "ab"] := by
    decide +kernel
  rw [hts] at hread
  exact ⟨compiled, ts, Rendering.result?_eq_some.1 hcompiled, hsql, hsql ▸ hts,
    Option.some.inj hread, by decide⟩

end SqlComposer
