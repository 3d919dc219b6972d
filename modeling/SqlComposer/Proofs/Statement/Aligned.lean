import SqlComposer.Proofs.Statement.Outlined
import SqlComposer.Proofs.Text.Joined

/-!
# Columns and values of an insertion

An insertion lists its columns in one list and their values in another. The two lists run side by
side: the members that are listed, in order, and for each of them the literal of its own value.
-/
namespace SqlComposer

open Text

namespace Insert

/-- An insertion of values into columns. No line break is left in it, and the columns go on
directly behind a table whose name ends with a blank or an opening bracket. -/
def sentence (table : String) (columns values : List String) : String :=
  dropLineBreaks ("INSERT INTO " ++ table ++ gapBehind (dropLineBreaks table) ++ "(" ++
    joinWith ", " columns ++ ") VALUES (" ++ joinWith ", " values ++ ")")

variable {s : Outline} {table : String} {l m : Listing} {pairs : List (FieldDef × Value)}

def valueText (d : Dialect) (pair : FieldDef × Value) : String :=
  d.written pair.2 (some pair.1.columnType)

structure Filled (s : Outline) (table : String) (l m : Listing) (pairs : List (FieldDef × Value)) :
    Prop where
  blocks : s.blocks = [.text 1 .insert ("INSERT INTO " ++ table), .listing l, .listing m]
  tags : l.tag = .insertFields ∧ m.tag = .values
  isOpen : l.isClosed = false ∧ m.isClosed = false
  columns : ∀ v, l.entries.map (Entry.written v) = pairs.map fun pair => pair.1.memberName
  values : ∀ v, m.entries.map (Entry.written v) = pairs.map (valueText v.dialect)

theorem filled_outline (q : Insert) :
    Filled q.outline q.schema.name { key := 2, tag := .insertFields } { key := 3, tag := .values }
      [] :=
  ⟨rfl, ⟨rfl, rfl⟩, ⟨rfl, rfl⟩, fun _ => rfl, fun _ => rfl⟩

theorem written_column (v : View) (f : FieldDef) (key : Key) :
    (column f key).written v = f.memberName := by
  simp [column, Entry.written, ColumnRef.render, ColumnRef.qualifier?, ColumnRef.named]

theorem written_value (v : View) (f : FieldDef) (x : Value) (key : Key) :
    (value f x key).written v = valueText v.dialect (f, x) :=
  rfl

namespace Filled

theorem add (h : Filled s table l m pairs) (pair : FieldDef × Value) :
    Filled (addToOutline s pair) table (l.enter (column pair.1 s.nextKey))
      (m.enter (value pair.1 pair.2 (s.nextKey + 1))) (pairs ++ [pair]) where
  blocks := by
    obtain ⟨hl, hm⟩ := h.tags
    have hbehind : ∀ b ∈ [Block.listing m], b.tag ≠ l.tag := by
      rw [List.forall_mem_singleton, Block.tag, hl, hm]
      decide
    have hcolumn := Outline.blocks_enter [_] h.blocks hbehind (column pair.1)
    rw [hl] at hcolumn
    have hvalue := Outline.blocks_enter [_, _] hcolumn (List.forall_mem_nil _)
      (value pair.1 pair.2)
    rw [hm] at hvalue
    exact hvalue
  tags := h.tags
  isOpen := h.isOpen
  columns v := by
    rw [Listing.entries_enter h.isOpen.1, List.map_append, List.map_append, h.columns]
    simp only [List.map_singleton, written_column]
  values v := by
    rw [Listing.entries_enter h.isOpen.2, List.map_append, List.map_append, h.values]
    simp only [List.map_singleton, written_value]

theorem addPairs (h : Filled s table l m pairs) (more : List (FieldDef × Value)) :
    ∃ l' m', Filled (more.foldl addToOutline s) table l' m' (pairs ++ more) := by
  induction more generalizing s l m pairs with
  | nil => exact ⟨l, m, (List.append_nil pairs).symm ▸ h⟩
  | cons pair more ih =>
    have hmore := ih (h.add pair)
    rwa [List.append_assoc] at hmore

end Filled

/-! ## The sentence -/

theorem write_bracket (opening : String) (items : List String) :
    Frame.write ⟨opening, ")"⟩ items = opening ++ joinWith ", " items ++ ")" := by
  cases items with
  | nil => simp [Frame.write, joinWith]
  | cons => rfl

theorem joinPieces_eq {pieces : List Piece} {columns values : List String}
    (hpieces : pieces.map Piece.text = ["INSERT INTO " ++ table,
      dropLineBreaks (Frame.write ⟨"(", ")"⟩ columns),
      dropLineBreaks (Frame.write ⟨"VALUES (", ")"⟩ values)]) :
    Compiler.joinPieces pieces = sentence table columns values := by
  have hfold : Compiler.joinPieces pieces =
      (pieces.map Piece.text).foldl (fun sql p => appendFragment sql (dropLineBreaks p)) "" := by
    rw [Compiler.joinPieces, List.foldl_map]
  have hinto : dropLineBreaks "INSERT INTO " = "INSERT INTO " := by decide
  have hopen : dropLineBreaks "(" = "(" := by decide
  have hclose : dropLineBreaks ")" = ")" := by decide
  have hvalues : dropLineBreaks "VALUES (" = "VALUES (" := by decide
  have hbetween : dropLineBreaks ") VALUES (" = ") VALUES (" := by decide
  have hgap (t : String) : gapBehind ("INSERT INTO " ++ t) = gapBehind t :=
    gapBehind_append (by decide) t
  have hend (s : String) : gapBehind (s ++ ")") = " " := by
    rw [gapBehind_of_getLast? (c := ')') (by simp [String.toList_append])]
    rfl
  have hcolumns (s t : String) :
      appendFragment s ("(" ++ t ++ ")") = s ++ gapBehind s ++ "(" ++ t ++ ")" := by
    rw [appendFragment_word (c := '(') (by simp [String.toList_append]) (by decide)]
    simp only [String.append_assoc]
  have hlist (s t : String) :
      appendFragment (s ++ ")") ("VALUES (" ++ t ++ ")") = s ++ ") VALUES (" ++ t ++ ")" := by
    rw [appendFragment_word (c := 'V') (by simp [String.toList_append]) (by decide), hend]
    simp [← String.toList_inj]
  rw [hfold, hpieces, sentence]
  simp only [List.foldl_cons, List.foldl_nil, empty_appendFragment, dropLineBreaks_dropLineBreaks,
    write_bracket, dropLineBreaks_append, hinto, hopen, hclose, hvalues, hbetween,
    dropLineBreaks_gapBehind]
  rw [hcolumns, hgap, hlist]

theorem Filled.sql_eq (h : Filled s table l m pairs) (c : Compiler) :
    s.sql c = sentence table
      ((pairs.map fun pair => pair.1.memberName).filter fun s => s ≠ "")
      ((pairs.map (valueText c.dialect)).filter fun s => s ≠ "") := by
  have hl : l.frame = ⟨"(", ")"⟩ := by simp [Listing.frame, h.tags.1, Tag.frame?]
  have hm : m.frame = ⟨"VALUES (", ")"⟩ := by simp [Listing.frame, h.tags.2, Tag.frame?]
  refine joinPieces_eq ?_
  rw [h.blocks, ← h.columns (s.view c), ← hl, ← hm]
  have hvalues := h.values (s.view c)
  rw [show (s.view c).dialect = c.dialect from rfl] at hvalues
  rw [← hvalues]
  rfl

end Insert

/-- An insertion lists the members that are not ignored and have a value, each with the literal of
its own value as its declared type has it. A name or a literal that is empty is left out; with none
of them, the columns and the values run side by side. -/
theorem columns_match_values (c : Compiler) (e : Entity) {values : List Value}
    (ignored : List String) (hraw : ∀ v ∈ values, ∀ text, v ≠ .raw text) :
    ∃ compiled literals,
      ((Statement.insert e values ignored).compile c).outcome = .ok compiled ∧
      literals.map some = (Insert.listed e values ignored).map (fun pair =>
        c.dialect.literal? pair.2 (some pair.1.columnType)) ∧
      compiled.sql = Insert.sentence e.name
        (((Insert.listed e values ignored).map fun pair => pair.1.name).filter fun s => s ≠ "")
        (literals.filter fun s => s ≠ "") ∧
      ((∀ pair ∈ Insert.listed e values ignored, pair.1.name ≠ "" ∧ pair.2 ≠ .decimal "") →
        compiled.sql = Insert.sentence e.name
          ((Insert.listed e values ignored).map fun pair => pair.1.name) literals) := by
  let q : Insert := { Insert.ofInstance c e values with ignored := [] ++ ignored }
  obtain ⟨l, m, hfilled⟩ := q.filled_outline.addPairs q.pairs
  have hcompiles : ((Statement.insert e values ignored).compile c).outcome =
      .ok ((q.pairs.foldl Insert.addToOutline q.outline).compiled c) := by
    rw [Statement.compile, Insert.foldl_ignore, Insert.compile]
    exact q.drawn_draft.draft_eq ▸ Outline.outcome_compile _ c
  -- only a raw text could be without a literal, and there is none among the values
  have hliteral : ∀ pair ∈ q.pairs,
      some (Insert.valueText c.dialect pair) = c.dialect.literal? pair.2 (some pair.1.columnType) := by
    intro pair hpair
    have hmem := (List.of_mem_zip (List.mem_filter.1 hpair).1).2
    obtain ⟨text, htext⟩ := Option.isSome_iff_exists.1
      (Dialect.literal?_isSome (hraw pair.2 hmem) c.dialect (some pair.1.columnType))
    rw [Insert.valueText, Dialect.written, htext]
    rfl
  have hsql := hfilled.sql_eq c
  rw [List.nil_append] at hsql
  refine ⟨_, q.pairs.map (Insert.valueText c.dialect), hcompiles, ?_⟩
  rw [← Insert.map_pairs c e values ignored]
  simp only [List.map_map, List.forall_mem_map]
  refine ⟨List.map_congr_left hliteral, hsql, fun hshown => ?_⟩
  have hnames : ∀ name ∈ q.pairs.map (fun pair => pair.1.memberName), name ≠ "" :=
    List.forall_mem_map.2 fun pair hpair => (hshown pair hpair).1
  have htexts : ∀ text ∈ q.pairs.map (Insert.valueText c.dialect), text ≠ "" :=
    List.forall_mem_map.2 fun pair hpair =>
      Dialect.literal?_ne_empty (hliteral pair hpair).symm (hshown pair hpair).2
  rw [List.filter_eq_self.2 fun name hname => decide_eq_true (hnames name hname),
    List.filter_eq_self.2 fun text htext => decide_eq_true (htexts text htext)] at hsql
  exact hsql

/-- An ignored member, a number for a truth value, a member without a value, and a string that looks
like two values. -/
theorem columns_match_values_order :
    let order : Entity := ⟨"Orders", [⟨"OrdersId", .int, false⟩, ⟨"Paid", .bool, false⟩,
      ⟨"ShipName", .string, true⟩, ⟨"Price", .decimal, false⟩, ⟨"Note", .string, true⟩]⟩
    let values : List Value := [.int 1, .int 7, .string "O'Neil', 'Oslo", .decimal "12.50"]
    (∀ v ∈ values, ∀ text, v ≠ .raw text) ∧
    (∀ pair ∈ Insert.listed order values ["OrdersId"], pair.1.name ≠ "" ∧ pair.2 ≠ .decimal "") ∧
    ∃ compiled, ((Statement.insert order values ["OrdersId"]).compile {}).outcome = .ok compiled ∧
      compiled.sql =
        "INSERT INTO Orders (Paid, ShipName, Price) VALUES (1, 'O''Neil'', ''Oslo', 12.50)" := by
  intro order values
  have hraw : ∀ v ∈ values, ∀ text, v ≠ .raw text := by
    simp [values]
  have hshown : ∀ pair ∈ Insert.listed order values ["OrdersId"],
      pair.1.name ≠ "" ∧ pair.2 ≠ .decimal "" := by
    simp [Insert.listed, order, values]
  obtain ⟨compiled, literals, hcompiled, hliterals, -, hsql⟩ :=
    columns_match_values {} order ["OrdersId"] hraw
  have hexpected : (Insert.listed order values ["OrdersId"]).map (fun pair =>
      Dialect.sqlite.literal? pair.2 (some pair.1.columnType)) =
        ["1", "'O''Neil'', ''Oslo'", "12.50"].map some := by
    decide +kernel
  obtain rfl := List.map_injective_iff.2 (Option.some_injective _) (hliterals.trans hexpected)
  exact ⟨hraw, hshown, compiled, hcompiled, (hsql hshown).trans (by decide +kernel)⟩

/-- A column whose name is empty and a value whose literal is empty are both left out, so that the
columns behind the one go with the values of others, and no line break gets into a statement. Behind
a table whose name ends with a blank the columns follow without another one. -/
theorem column_beside_another_value :
    let odd : Entity := ⟨"dbo.Order Détails", [⟨"Order ID", .int, false⟩, ⟨"Naïve", .string, true⟩,
      ⟨"", .char, false⟩, ⟨"dbo.order détailsid", .bigInt, false⟩]⟩
    let spaced : Entity := ⟨"Log ", [⟨"Message", .string, false⟩]⟩
    (∃ compiled,
      ((Statement.insert odd [.int 1, .string "x\ny", .string "z", .decimal ""] []).compile
        {}).outcome = .ok compiled ∧
      compiled.sql = "INSERT INTO dbo.Order Détails (Order ID, Naïve, dbo.order détailsid) " ++
        "VALUES (1, 'xy', 'z')" ∧
      compiled.sql ≠ "INSERT INTO dbo.Order Détails (Order ID, Naïve, , dbo.order détailsid) " ++
        "VALUES (1, 'x\ny', 'z', )") ∧
    ∃ compiled,
      ((Statement.insert spaced [.string "z"] []).compile {}).outcome = .ok compiled ∧
      compiled.sql = "INSERT INTO Log (Message) VALUES ('z')" ∧
      compiled.sql ≠ "INSERT INTO Log  (Message) VALUES ('z')" := by
  intro odd spaced
  have hsql : ((Statement.insert odd [.int 1, .string "x\ny", .string "z", .decimal ""] []).compile
      {}).result?.map Compiled.sql =
      some ("INSERT INTO dbo.Order Détails (Order ID, Naïve, dbo.order détailsid) " ++
        "VALUES (1, 'xy', 'z')") := by
    decide +kernel
  have hspaced : ((Statement.insert spaced [.string "z"] []).compile {}).result?.map Compiled.sql =
      some "INSERT INTO Log (Message) VALUES ('z')" := by
    decide +kernel
  obtain ⟨compiled, hcompiled, hsql⟩ := Option.map_eq_some_iff.1 hsql
  obtain ⟨compiled', hcompiled', hspaced⟩ := Option.map_eq_some_iff.1 hspaced
  exact ⟨⟨compiled, Rendering.result?_eq_some.1 hcompiled, hsql, hsql ▸ by decide +kernel⟩,
    compiled', Rendering.result?_eq_some.1 hcompiled', hspaced, hspaced ▸ by decide +kernel⟩

end SqlComposer
