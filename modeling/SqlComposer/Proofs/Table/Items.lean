import SqlComposer.Proofs.Outline.Text
import SqlComposer.Proofs.Text.Joined
import SqlComposer.Proofs.Tree
import SqlComposer.Statement.Table

/-!
# Items of a table definition

A comma stands behind every item but the last one of the whole statement, which its key tells from
the others. A member that is left out has a part without text, and the commas do not see it.
-/
namespace SqlComposer

namespace Table

inductive Item where
  | ignored (member : String)
  | column (c : ColumnDecl)
  | constraint (id text : String)
  deriving DecidableEq

abbrev Entry := Key × Item

def Item.part (key : Key) : Item → Part
  | .ignored member => (Part.text key .ignoredColumn "").withId member
  | .column c => .column key c
  | .constraint id text => .tableKey key id text

def Entry.part (e : Entry) : Part := e.2.part e.1

/-- The definition of a column, which declares the primary key if the column numbers its rows. -/
def columnText (d : Dialect) (c : ColumnDecl) : String :=
  c.name ++ " " ++ (if c.autoIncrement then d.autoIncrementType c.columnType
      else d.typeKeyword c.columnType) ++
    (if c.nullable then "" else " NOT NULL") ++
    (if c.autoIncrement then " " ++ d.autoIncrementKeyword else "")

def Item.text? (d : Dialect) : Item → Option String
  | .ignored _ => none
  | .column c => some (columnText d c)
  | .constraint _ text => some text

namespace Entry

variable {v : View} {e : Entry} {entries : List Entry}

def written (v : View) (e : Entry) : String :=
  match e.2.text? v.dialect with
  | some text => text ++ itemSeparator v e.1
  | none => ""

theorem render_column (v : View) (c : ColumnDecl) : c.render v = columnText v.dialect c := by
  rw [ColumnDecl.render, columnText]
  by_cases h : c.autoIncrement = true <;> simp [h, notNull, String.append_assoc]

theorem outcome_render (e : Entry) : (e.part.render v).outcome = .ok (e.written v) := by
  obtain ⟨key, item⟩ := e
  cases item with
  | ignored => rfl
  | column c =>
    rw [written, Item.text?, ← render_column]
    rfl
  | constraint => rfl

theorem flatten_part (e : Entry) : e.part.flatten = [e.part] := by
  obtain ⟨key, item⟩ := e
  cases item <;> rfl

theorem isTableItem_part (d : Dialect) (e : Entry) :
    e.part.tag.isTableItem = (e.2.text? d).isSome := by
  obtain ⟨key, item⟩ := e
  cases item <;> rfl

theorem key_part (e : Entry) : e.part.key = e.1 := by
  obtain ⟨key, item⟩ := e
  cases item <;> rfl

end Entry

def shown (d : Dialect) (entries : List Entry) : List Entry :=
  entries.filter fun e => (e.2.text? d).isSome

def texts (d : Dialect) (entries : List Entry) : List String :=
  entries.filterMap fun e => e.2.text? d

def append (v : View) (sql : String) (entries : List Entry) : String :=
  entries.foldl (fun sql e => Text.appendFragment sql (Text.dropLineBreaks (e.written v))) sql

variable {v : View} {sql : String} {e : Entry} {entries : List Entry}

theorem append_of_shown_eq_nil (h : shown v.dialect entries = []) : append v sql entries = sql := by
  induction entries with
  | nil => rfl
  | cons e entries ih =>
    have hnone : e.2.text? v.dialect = none := by
      simpa using List.filter_eq_nil_iff.1 h e List.mem_cons_self
    rw [shown, List.filter_cons_of_neg (by simp [hnone])] at h
    have hwritten : e.written v = "" := by rw [Entry.written, hnone]
    rw [append, List.foldl_cons, hwritten]
    exact ih h

theorem texts_eq_nil_iff {d : Dialect} : texts d entries = [] ↔ shown d entries = [] := by
  simp [texts, shown, List.filterMap_eq_nil_iff, List.filter_eq_nil_iff]

theorem append_eq (hopen : Text.IsOpen sql) (hkeys : (entries.map Prod.fst).Nodup)
    (hlast : ∀ e, (shown v.dialect entries).getLast? = some e → v.lastTableItem = some e.1) :
    append v sql entries =
      sql ++ Text.dropLineBreaks (Text.joinWith ", " (texts v.dialect entries)) := by
  induction entries generalizing sql with
  | nil => exact String.append_empty.symm
  | cons e entries ih =>
    rw [List.map_cons, List.nodup_cons] at hkeys
    rw [append, List.foldl_cons, Entry.written, texts, List.filterMap_cons]
    cases htext : e.2.text? v.dialect with
    | none =>
      refine ih hopen hkeys.2 fun last h => hlast last ?_
      rwa [shown, List.filter_cons_of_neg (by simp [htext])]
    | some text =>
      rw [shown, List.filter_cons_of_pos (by simp [htext]), List.getLast?_cons] at hlast
      rw [Text.joinWith_cons]
      change append v (Text.appendFragment sql
        (Text.dropLineBreaks (text ++ itemSeparator v e.1))) entries =
          sql ++ Text.dropLineBreaks (if texts v.dialect entries = [] then text
            else text ++ ", " ++ Text.joinWith ", " (texts v.dialect entries))
      rw [hopen.appendFragment_eq]
      by_cases hrest : shown v.dialect entries = []
      · -- the last one of all
        have hseparator : itemSeparator v e.1 = "" :=
          if_pos (hlast e (by rw [← shown, hrest]; rfl))
        rw [append_of_shown_eq_nil hrest, if_pos (texts_eq_nil_iff.2 hrest), hseparator,
          String.append_empty]
      · obtain ⟨last, hmem⟩ := Option.ne_none_iff_exists'.1 (mt List.getLast?_eq_none_iff.1 hrest)
        have hview : v.lastTableItem = some last.1 := hlast last (by rw [← shown, hmem]; rfl)
        have hne : last.1 ≠ e.1 := by
          intro heq
          have hlastmem := List.mem_of_mem_filter (List.mem_of_getLast? hmem)
          exact hkeys.1 (heq ▸ List.mem_map_of_mem hlastmem)
        have hseparator : itemSeparator v e.1 = ", " :=
          if_neg (by rw [hview]; exact fun h => hne (Option.some.inj h))
        have hcomma : Text.dropLineBreaks (text ++ ", ") = Text.dropLineBreaks text ++ ", " :=
          Text.dropLineBreaks_append text ", "
        have hopen : Text.IsOpen (sql ++ (Text.dropLineBreaks text ++ ", ")) := by
          rw [← String.append_assoc]
          exact Text.isOpen_append (c := ' ') rfl (.inl rfl)
        rw [hseparator, hcomma, ih hopen hkeys.2, if_neg (mt texts_eq_nil_iff.1 hrest),
          Text.dropLineBreaks_append, hcomma]
        · simp only [String.append_assoc]
        · intro last' h
          rw [hmem] at h
          cases h
          exact hview

/-! ### The whole statement -/

def partsOf (opening : String) (first last : Key) (entries : List Entry) : List Part :=
  .text first .createTable opening :: (entries.map Entry.part ++ [.text last .plain ")"])

variable {t : Tree} {opening : String} {first last : Key} {c : Compiler}

theorem flattenAll_entries (entries : List Entry) :
    Part.flattenAll (entries.map Entry.part) = entries.map Entry.part := by
  rw [Part.flattenAll_eq, List.flatMap_map, funext Entry.flatten_part, List.map_eq_flatMap]

theorem lastTableItem_eq (d : Dialect) (ht : t.parts = partsOf opening first last entries)
    (qualify : Bool) : (t.view d qualify).lastTableItem = (shown d entries).getLast?.map Prod.fst := by
  have hflatten : t.flatten = partsOf opening first last entries := by
    rw [Tree.flatten, ht, partsOf, Part.flattenAll, Part.flattenAll_append, flattenAll_entries]
    rfl
  have hitems : t.flatten.filter (fun p => p.tag.isTableItem) = (shown d entries).map Entry.part := by
    rw [hflatten, partsOf, List.filter_cons_of_neg Bool.false_ne_true, List.filter_append,
      List.filter_map, shown]
    refine (List.append_nil _).trans (congrArg _ (List.filter_congr fun e _ => ?_))
    exact e.isTableItem_part d
  change ((t.flatten.filter fun p => p.tag.isTableItem).getLast?).map Part.key = _
  rw [hitems, List.getLast?_map, Option.map_map]
  exact congrArg (Option.map · _) (funext Entry.key_part)

theorem outcome_compile (hshape : t.shape = .statement)
    (ht : t.parts = partsOf opening first last entries)
    (hopening : Text.IsOpen (Text.dropLineBreaks opening)) (hkeys : (entries.map Prod.fst).Nodup) :
    (c.compile t).outcome.map Compiled.sql =
      .ok (Text.dropLineBreaks opening ++
        Text.dropLineBreaks (Text.joinWith ", " (texts c.dialect entries)) ++ ")") := by
  let v := t.view c.dialect c.qualify
  have hentries : (Part.renderAll v (entries.map Entry.part)).outcome =
      .ok (entries.map fun e => ⟨e.written v, e.part.isGroup⟩) :=
    Part.outcome_renderAll_map Entry.outcome_render entries
  have hparts : (Part.renderAll v t.parts).outcome =
      .ok (⟨opening, false⟩ ::
        (entries.map (fun e => ⟨e.written v, e.part.isGroup⟩) ++ [⟨")", false⟩])) := by
    rw [ht, partsOf, ← List.singleton_append, Part.outcome_renderAll_append,
      Part.outcome_renderAll_append, hentries]
    rfl
  have hlast : ∀ e, (shown v.dialect entries).getLast? = some e → v.lastTableItem = some e.1 := by
    intro e he
    rw [lastTableItem_eq c.dialect ht]
    exact congrArg (Option.map Prod.fst) he
  have hsql : Compiler.joinPieces (⟨opening, false⟩ ::
      (entries.map (fun e => ⟨e.written v, e.part.isGroup⟩) ++ [⟨")", false⟩])) =
        Text.dropLineBreaks opening ++
          Text.dropLineBreaks (Text.joinWith ", " (texts c.dialect entries)) ++ ")" := by
    rw [Compiler.joinPieces, List.foldl_cons, Text.empty_appendFragment, List.foldl_append,
      List.foldl_map]
    change Text.appendFragment (append v (Text.dropLineBreaks opening) entries) ")" = _
    rw [append_eq hopening hkeys hlast, Text.appendFragment_bracket]
    rfl
  rw [Compiler.compile, Compiler.sql, hshape, Rendering.outcome_bind, Compiler.statementSql,
    Rendering.outcome_bind, hparts, ← hsql]
  rfl

end Table

end SqlComposer
