import SqlComposer.Proofs.Outline.Template
import SqlComposer.Proofs.Statement.Portable
import SqlComposer.Proofs.Statement.Programs

/-!
# The dialects of a statement

The dialects refuse a statement together, and what they write of it comes from one template: only
the character between date and time is a dialect's own. Tables and procedures are defined and called
in words of each dialect, and are no queries in this sense.
-/
namespace SqlComposer

open Calendar

namespace Program

def IsQuery : Program → Prop
  | .statement _ | .updateExample | .deleteExample => True
  | .table .. | .procedure .. => False

/-- The dialects refuse a query with the same fault, or they write it alike: the texts are spelled
from one template, in which each timestamp among the values of the statement has its literal, and
differ in the character between date and time of these literals. -/
theorem dialects_differ_in_separators {p : Program} (hp : p.IsQuery) (qualify : Bool) :
    (∃ f, ∀ d, (p.compile ⟨d, qualify⟩).outcome = .error f) ∨
      ∃ (tree : Tree) (template : List Stretch),
        template.filterMap Stretch.stamp? = timestamps tree.values ∧
        ∀ d, ∃ sql, (p.compile ⟨d, qualify⟩).outcome = .ok ⟨sql, tree⟩ ∧
          sql.toList = template.flatMap (Stretch.spell d) := by
  cases p with
  | statement t =>
    obtain ⟨f, hfault⟩ | ⟨s, hs, hcompile⟩ := t.portable
    · exact .inl ⟨f, fun d => hfault ⟨d, qualify⟩⟩
    · obtain ⟨template, hstamps, hspelled⟩ := Outline.exists_template hs qualify
      rw [← Outline.draft_values] at hstamps
      exact .inr ⟨s.draft.toTree, template, hstamps, fun d =>
        ⟨s.sql ⟨d, qualify⟩, hcompile _, hspelled d⟩⟩
  | updateExample | deleteExample => exact .inl ⟨_, fun _ => rfl⟩
  | table | procedure => exact hp.elim

/-- An instance with a time is written back, with a second time, where a third is read late. -/
theorem dialects_differ_in_separators_event :
    let event : Entity := ⟨"Event", [⟨"Id", .int, false⟩, ⟨"At", .dateTime, false⟩]⟩
    let day : Date := ⟨2024, 3, 1, by decide, by decide, by decide⟩
    let time (hour : Nat) : Timestamp := ⟨day, hour, 30, 5, 0⟩
    let p : Program := .statement
      (.update event (some { values := [.int 7, .dateTime (time 8)] })
        [.set "Seen" (.dateTime (time 23)),
          .filter (.binary .less (.col "Seen") (.deferred ⟨0, 0, .dateTime (time 9)⟩))])
    let sql := "UPDATE Event SET At='2024-03-01 08:30:05', Seen='2024-03-01 23:30:05'" ++
      " WHERE (Id = 7) AND (Seen < '2024-03-01 09:30:05')"
    let serverSql := "UPDATE Event SET At='2024-03-01T08:30:05', Seen='2024-03-01T23:30:05'" ++
      " WHERE (Id = 7) AND (Seen < '2024-03-01T09:30:05')"
    p.IsQuery ∧
      (p.compile ⟨.sqlite, false⟩).outcome.map Compiled.sql = .ok sql ∧
      (p.compile ⟨.sqlServer, false⟩).outcome.map Compiled.sql = .ok serverSql ∧
      ∃ template : List Stretch, template.filterMap Stretch.stamp? = [time 8, time 23, time 9] ∧
        sql.toList = template.flatMap (Stretch.spell .sqlite) ∧
        serverSql.toList = template.flatMap (Stretch.spell .sqlServer) := by
  intro event day time p sql serverSql
  have hsqlite : (p.compile ⟨.sqlite, false⟩).outcome.map Compiled.sql = .ok sql := by
    decide +kernel
  have hserver : (p.compile ⟨.sqlServer, false⟩).outcome.map Compiled.sql = .ok serverSql := by
    decide +kernel
  have hvalues : (p.compile ⟨.sqlite, false⟩).outcome.map (fun r => timestamps r.tree.values) =
      .ok [time 8, time 23, time 9] := by
    decide +kernel
  refine ⟨trivial, hsqlite, hserver, ?_⟩
  obtain ⟨f, hfault⟩ | ⟨tree, template, hstamps, hspelled⟩ :=
    dialects_differ_in_separators (p := p) trivial false
  · cases (congrArg (Except.map Compiled.sql) (hfault .sqlite)).symm.trans hsqlite
  · obtain ⟨text, hok, htext⟩ := hspelled .sqlite
    obtain ⟨serverText, hserverOk, hserverText⟩ := hspelled .sqlServer
    rw [hok] at hsqlite hvalues
    rw [hserverOk] at hserver
    refine ⟨template, hstamps.trans (Except.ok.inj hvalues), ?_, ?_⟩
    · rw [← htext, ← Except.ok.inj hsqlite]
    · rw [← hserverText, ← Except.ok.inj hserver]

end Program

end SqlComposer
