import SqlComposer.Proofs.Table.Finishers
import SqlComposer.Proofs.Text.Lexer

/-!
# Renamings and apostrophes

SQL Server renames a table by a call with two string literals, and the statement puts both names
between apostrophes as they are. They are read back as the names exactly if neither of them has an
apostrophe or a line break; any other name makes it another statement, or none.
-/
namespace SqlComposer

namespace Text

/-- A call of `sp_rename` with two string literals. -/
def renamingTokens (table newName : String) : List Token :=
  plain "EXEC sp_rename " ++ [.literal table] ++ plain ", " ++ [.literal newName]

theorem lawful_renamingTokens (table newName : String) :
    Lawful (renamingTokens table newName) := by
  have hcall : Lawful (plain "EXEC sp_rename " ++ [.literal table]) :=
    lawful_nil.append_plain (lawful_singleton table) (s := "EXEC sp_rename ") (by decide) (by decide)
  exact hcall.append_plain (lawful_singleton newName) (by decide) (by decide)

theorem spell_renamingTokens (table newName : String) :
    (renamingTokens table newName).flatMap Token.spell =
      "EXEC sp_rename '".toList ++ (doubled table.toList ++ "', '".toList ++
        doubled newName.toList) ++ "'".toList := by
  have hopening : "EXEC sp_rename '".toList = "EXEC sp_rename ".toList ++ ['\''] := rfl
  have hcomma : "', '".toList = '\'' :: (", ".toList ++ ['\'']) := rfl
  have hclosing : "'".toList = ['\''] := rfl
  rw [hopening, hcomma, hclosing, renamingTokens, List.flatMap_append, List.flatMap_append,
    List.flatMap_append, spell_plain, spell_plain, List.flatMap_singleton, List.flatMap_singleton,
    Token.spell, Token.spell]
  generalize "EXEC sp_rename ".toList = opening
  generalize ", ".toList = comma
  simp only [List.append_assoc, List.cons_append, List.nil_append]

theorem toList_dropLineBreaks_between {a b c : String} (ha : OneLine a) (hb : OneLine b)
    (hc : OneLine c) (s t : String) :
    (dropLineBreaks (a ++ s ++ b ++ t ++ c)).toList =
      a.toList ++ ((dropLineBreaks s).toList ++ b.toList ++ (dropLineBreaks t).toList) ++
        c.toList := by
  simp only [dropLineBreaks_append, ha.dropLineBreaks_eq, hb.dropLineBreaks_eq,
    hc.dropLineBreaks_eq, String.toList_append, List.append_assoc]

theorem toList_renameTable (table newName : String) :
    (dropLineBreaks (Dialect.sqlServer.renameTable table newName)).toList =
      "EXEC sp_rename '".toList ++ ((dropLineBreaks table).toList ++ "', '".toList ++
        (dropLineBreaks newName).toList) ++ "'".toList :=
  toList_dropLineBreaks_between (by decide) (by decide) (by decide) table newName

theorem lex_renameTable_iff (table newName : String) :
    lex (dropLineBreaks (Dialect.sqlServer.renameTable table newName)) =
        some (renamingTokens table newName) ↔ Inert table ∧ Inert newName := by
  rw [lex_eq_some_iff (lawful_renamingTokens table newName), toList_renameTable,
    spell_renamingTokens, List.append_left_inj, List.append_right_inj,
    ← toList_dropLineBreaks_eq_doubled_iff, ← toList_dropLineBreaks_eq_doubled_iff]
  constructor
  · -- neither name is longer as it is written than as a literal, so the comma is in its place
    intro h
    have hlength := congrArg List.length h
    have htable := length_dropLineBreaks_le_doubled table
    have hnew := length_dropLineBreaks_le_doubled newName
    simp only [List.length_append] at hlength
    obtain ⟨hleft, hright⟩ := List.append_inj' h (by omega)
    exact ⟨(List.append_inj' hleft rfl).1, hright⟩
  · rintro ⟨htable, hnew⟩
    rw [htable, hnew]

end Text

namespace Table

theorem outcome_rename (c : Compiler) (s : Schema) {newName : String} (h : newName ≠ "") :
    ∃ compiled, ((ofSchema c s).rename newName).outcome = .ok compiled ∧
      compiled.sql = Text.dropLineBreaks (c.dialect.renameTable s.name newName) := by
  have hflat : ((Finish.rename newName).tree (ofSchema c s)).IsFlat :=
    List.forall_mem_singleton.2 rfl
  obtain ⟨compiled, hcompiled, hsql⟩ := hflat.compile_eq rfl c
  refine ⟨compiled, ?_, hsql.trans (Text.joinFragments_singleton _)⟩
  rw [rename, if_neg h]
  exact hcompiled

/-- A renaming for SQL Server always comes about. A lexer reads it as a call with the two names as
string literals, and nothing else, exactly if no name has an apostrophe or a line break. -/
theorem renaming_reads_back_iff (qualify : Bool) (s : Schema) {newName : String}
    (hname : newName ≠ "") :
    ∃ compiled, ((ofSchema ⟨.sqlServer, qualify⟩ s).rename newName).outcome = .ok compiled ∧
      (Text.lex compiled.sql = some (Text.renamingTokens s.name newName) ↔
        Text.Inert s.name ∧ Text.Inert newName) := by
  obtain ⟨compiled, hcompiled, hsql⟩ := outcome_rename ⟨.sqlServer, qualify⟩ s hname
  refine ⟨compiled, hcompiled, ?_⟩
  rw [hsql]
  exact Text.lex_renameTable_iff s.name newName

theorem renaming_reads_back_iff_details :
    let s : Schema := .ofTable "dbo.Order Details" [{ name := "Id", columnType := .int }]
    "Order \"Lines\", new" ≠ "" ∧ ∃ compiled,
      ((ofSchema { dialect := .sqlServer } s).rename "Order \"Lines\", new").outcome =
        .ok compiled ∧
      Text.lex compiled.sql =
        some (Text.renamingTokens "dbo.Order Details" "Order \"Lines\", new") := by
  intro s
  have hname : "Order \"Lines\", new" ≠ "" := by decide
  obtain ⟨compiled, hcompiled, hreads⟩ := renaming_reads_back_iff true s hname
  exact ⟨hname, compiled, hcompiled, hreads.2 ⟨by decide, by decide⟩⟩

/-- With one apostrophe in a name the statement ends inside a literal, and with two of them a name
makes statements of its own. -/
theorem apostrophe_rewrites_renaming :
    let s : Schema := .ofTable "Customer" [{ name := "Id", columnType := .int }]
    let sql (newName : String) :=
      ((ofSchema { dialect := .sqlServer } s).rename newName).result?.map Compiled.sql
    sql "O'Brien" = some "EXEC sp_rename 'Customer', 'O'Brien'" ∧
      (sql "O'Brien").bind Text.lex = none ∧
      (sql "A'; DROP TABLE Orders; PRINT 'B").bind Text.lex =
        some (Text.renamingTokens "Customer" "A" ++
          Text.plain "; DROP TABLE Orders; PRINT " ++ [.literal "B"]) := by
  decide +kernel

end Table

end SqlComposer
