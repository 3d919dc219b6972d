import SqlComposer.Proofs.Statement.Outlined

/-!
# Strings cannot change a statement

A string is one literal, whatever it says. A statement is compiled from a template, into which its
strings are filled: other strings leave the tokens outside of literals as they are, and every literal
says the value in its place.
-/
namespace SqlComposer

open Text

theorem Parameter.render_string {p : Parameter} {s : String} (hname : p.name = none)
    (hs : p.held? = some (.string s)) (v : View) : (p.render v).value = quoted s := by
  rw [render_value hs, prefixText, hname]
  exact String.empty_append

/-- The text of a string parameter is one literal, with line breaks and without. A statement into
which some strings can be filled, its own strings only saying which one goes where, takes any others:
all fillings compile to the same tokens outside of literals, and the literals of each are its quoted
values in order, among which each string of the statement has its place. -/
theorem strings_keep_structure :
    (∀ (v : View) (p : Parameter) (s : String), p.name = none → p.held? = some (.string s) →
      lex (p.render v).value = some [.literal s] ∧
        lex (dropLineBreaks (p.render v).value) = some [.literal (dropLineBreaks s)]) ∧
    ∀ (c : Compiler) (template : Statement) (f : String → String) (compiled : Compiled),
      template.Clean → ((template.mapStrings f).compile c).outcome = .ok compiled →
      ∃ (shape : List Token) (values : List Value),
        (values.filterMap Value.string?).Perm template.strings ∧ ∀ g : String → String, ∃ filled ts,
          ((template.mapStrings g).compile c).outcome = .ok filled ∧ lex filled.sql = some ts ∧
          ts.map Token.shape = shape ∧ filled.tree.values = values.map (Value.mapString g) ∧
          literals ts = c.dialect.quotedTexts (values.map (Value.mapString g)) := by
  constructor
  · intro v p s hname hs
    rw [Parameter.render_string hname hs, dropLineBreaks_quoted]
    exact ⟨lex_quoted s, lex_quoted _⟩
  · intro c template f compiled hclean hcompiled
    obtain hrefused | ⟨s, hs⟩ := template.refused_or_outlined c
    · have hnone := hrefused f
      rw [Rendering.result?_eq_some.2 hcompiled] at hnone
      cases hnone
    have hsclean := hs.clean hclean
    refine ⟨(s.tokens (s.view c)).map Token.shape, s.values, ?_, fun g => ?_⟩
    · rw [Outline.filterMap_values]
      exact hs.binds.perm
    refine ⟨(s.mapStrings g).compiled c, _, Rendering.result?_eq_some.1 (hs.compiles g),
      Outline.lex_sql (hsclean.mapStrings g) c, ?_, ?_, ?_⟩
    · rw [Outline.view_mapStrings, Outline.shape_tokens g hsclean.settled]
    · rw [Outline.compiled, Outline.draft_values, Outline.values_mapStrings]
    · rw [Outline.literals_tokens (hsclean.mapStrings g).settled, Outline.values_mapStrings]
      rfl

/-- Strings with apostrophes at either end, which say more SQL. -/
theorem strings_keep_structure_injected :
    let user : Entity := ⟨"User", [⟨"Id", .int, false⟩, ⟨"Name", .string, true⟩]⟩
    let template : Statement := .update user none
      [.set "Name" (.string "new"), .filter (.equals (.col "Name") (.constant (.string "old")))]
    let injected (label : String) : String :=
      if label = "new" then "', Admin = '1" else "' OR ''='"
    ∃ plain filled ts us, template.Clean ∧
      ((template.mapStrings id).compile {}).outcome = .ok plain ∧ lex plain.sql = some ts ∧
      ((template.mapStrings injected).compile {}).outcome = .ok filled ∧
      lex filled.sql = some us ∧ us.map Token.shape = ts.map Token.shape ∧
      literals ts = ["new", "old"] ∧ literals us = ["', Admin = '1", "' OR ''='"] := by
  intro user template injected
  have hclean : template.Clean := by
    refine ⟨⟨by decide, by decide⟩, nofun, fun call hcall => ?_⟩
    obtain rfl | rfl := List.mem_pair.1 hcall
    · exact ⟨by decide, trivial⟩
    · exact ⟨⟨nofun, nofun, by decide⟩, trivial⟩
  have hquoted (g : String → String) (texts : List String)
      (h : (((template.mapStrings g).compile {}).result?.map fun r =>
        Dialect.sqlite.quotedTexts r.tree.values) = some texts) {r : Compiled}
      (hr : ((template.mapStrings g).compile {}).outcome = .ok r) :
      Dialect.sqlite.quotedTexts r.tree.values = texts := by
    rw [Rendering.result?_eq_some.2 hr] at h
    exact Option.some.inj h
  have hcompiles : ((template.mapStrings id).compile {}).result?.isSome = true := by
    decide +kernel
  obtain ⟨r, hr⟩ := Option.isSome_iff_exists.1 hcompiles
  obtain ⟨shape, values, -, hall⟩ :=
    strings_keep_structure.2 {} template id r hclean (Rendering.result?_eq_some.1 hr)
  obtain ⟨plain, ts, hplain, hts, hshape, hvalues, hliterals⟩ := hall id
  obtain ⟨filled, us, hfilled, hus, hshape', hvalues', hliterals'⟩ := hall injected
  refine ⟨plain, filled, ts, us, hclean, hplain, hts, hfilled, hus, hshape'.trans hshape.symm, ?_, ?_⟩
  · rw [hliterals, ← hvalues]
    exact hquoted id _ (by decide +kernel) hplain
  · rw [hliterals', ← hvalues']
    exact hquoted injected _ (by decide +kernel) hfilled

end SqlComposer
