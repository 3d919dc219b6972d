import SqlComposer.Proofs.Statement.Aligned
import SqlComposer.Proofs.Statement.Instance

/-!
# The row that is inserted and the row that is found

An insertion writes the value of a member as the member's type has it, while the restriction of an
update or a deletion compares the column with the bare value. The two texts are the same, except
for a truth value that is a number other than 0 and 1.
-/
namespace SqlComposer

/-! ### Two literals for one value -/

theorem Value.eq_one_of_intText {n : Int64} (h : intText n = "1") : n = 1 := by
  rw [intText] at h
  have hn : n.toInt = 1 := by
    cases hi : n.toInt with
    | ofNat m =>
      rw [hi] at h
      have hdigits : Nat.toDigits 10 m = ['1'] := by
        have hlist := congrArg String.toList h
        change m.repr.toList = _ at hlist
        rw [Nat.repr_eq_ofList_toDigits, String.toList_ofList] at hlist
        exact hlist.trans (by decide)
      have hm := Nat.ofDigitChars_toDigits (b := 10) (n := m) (by decide) (by decide)
      rw [hdigits] at hm
      rw [← hm]
      rfl
    | negSucc m =>
      -- a sign is no digit
      rw [hi] at h
      have hsign := congrArg (fun s : String => s.toList.head?) h
      change ("-" ++ toString (m + 1)).toList.head? = _ at hsign
      rw [String.toList_append] at hsign
      cases hsign
  exact Int64.toInt_inj.1 hn

namespace Dialect

theorem bitLiteral_eq_intText_iff (n : Int64) :
    bitLiteral (n ≠ 0) = Value.intText n ↔ n = 0 ∨ n = 1 := by
  by_cases hn : n = 0
  · subst hn
    exact iff_of_true (by decide) (.inl rfl)
  · have hbit : bitLiteral (n ≠ 0) = "1" := by rw [decide_eq_true hn, bitLiteral, if_pos rfl]
    rw [hbit]
    constructor
    · intro h
      exact .inr (Value.eq_one_of_intText h.symm)
    · intro h
      rw [h.resolve_left hn]
      decide

/-- Only a number for a truth value is written differently where its type is declared. -/
theorem literal?_declared_iff (d : Dialect) (v : Value) (type : ColumnType) :
    d.literal? v none = d.literal? v (some type) ↔
      ¬(type = .bool ∧ ∃ n, v = .int n ∧ n ≠ 0 ∧ n ≠ 1) := by
  cases v with
  | int n =>
    have hnone : d.literal? (.int n) none = some (Value.intText n) := rfl
    rw [hnone, literal?]
    by_cases htype : type = .bool
    · rw [if_pos (congrArg some htype), Option.some.injEq, eq_comm, bitLiteral_eq_intText_iff]
      constructor
      · rintro hn ⟨-, m, hm, hzero, hone⟩
        cases hm
        exact hn.elim hzero hone
      · intro hnot
        by_contra hn
        rw [not_or] at hn
        exact hnot ⟨htype, n, rfl, hn⟩
    · rw [if_neg fun h => htype (Option.some.inj h)]
      exact iff_of_true rfl fun h => htype h.1
  | null | bool | float | decimal | string | dateTime | date | uuid | raw =>
    refine iff_of_true rfl ?_
    rintro ⟨-, n, hn, -⟩
    cases hn

end Dialect

/-! ### The parameters of a member -/

theorem flatMap_eq_of_nodup_map {α β : Type} {f : α → String} {l : List α}
    (hnodup : (l.map f).Nodup) {a : α} (ha : a ∈ l) (g : α → List β) :
    (l.flatMap fun b => if f b = f a then g b else []) = g a := by
  induction l with
  | nil => cases ha
  | cons b l ih =>
    rw [List.map_cons, List.nodup_cons] at hnodup
    rw [List.flatMap_cons]
    rcases List.mem_cons.1 ha with rfl | ha
    · have hrest : (l.flatMap fun b => if f b = f a then g b else []) = [] := by
        refine List.flatMap_eq_nil_iff.2 fun b hb => if_neg fun hname => hnodup.1 ?_
        exact hname ▸ List.mem_map_of_mem hb
      rw [if_pos rfl, hrest, List.append_nil]
    · have hne : f b ≠ f a := fun hname => hnodup.1 (hname ▸ List.mem_map_of_mem ha)
      rw [if_neg hne, List.nil_append, ih hnodup.2 ha]

def Part.parameter? : Part → Option Parameter
  | .leaf _ (.parameter p) => some p
  | _ => none

def Tree.insertedFor (t : Tree) (member : String) : List Parameter :=
  let columns := (t.partsOf .insertFields).flatMap Part.children
  let values := (t.partsOf .values).flatMap Part.children
  (columns.zip values).flatMap fun child =>
    if (child.1.field?.map ColumnRef.field) = some member then child.2.parameter?.toList else []

def Operand.comparedWith (member : String) : Operand → List Parameter
  | .binary .equal (.column f) (.parameter p) => if f.field = member then [p] else []
  | .binary _ left right => left.comparedWith member ++ right.comparedWith member
  | _ => []

/-- The restriction of a statement is read as the operand and as nothing else. -/
def Tree.RestrictedTo (t : Tree) (said : Operand) : Prop :=
  ∃ clause, t.partsOf .whereClause = [clause] ∧ ∀ s, Reads clause.children s ↔ s = said

/-! ### Insertions -/

theorem Tag.frame?_insertFields : Tag.insertFields.frame?.isSome := rfl

theorem Tag.frame?_values : Tag.values.frame?.isSome := rfl

namespace Insert

def written (pair : Member × Value) : Parameter where
  source := .value pair.2
  declared := some pair.1.columnType

/-- An insertion into a table, whose columns and values take their keys in turns. -/
def listing (table : String) (pairs : List (Member × Value)) : Outline where
  blocks := [.text 1 .insert ("INSERT INTO " ++ table),
    .listing
      { key := 2, tag := .insertFields
        entries := pairs.zipIdx.map fun a => .column (4 + 2 * a.2) (.named a.1.1.name)
        opensList := Tag.frame?_insertFields },
    .listing
      { key := 3, tag := .values
        entries := pairs.zipIdx.map fun a => .parameter (4 + 2 * a.2 + 1) (written a.1)
        opensList := Tag.frame?_values }]
  nextKey := 4 + 2 * pairs.length

theorem addToOutline_listing (table : String) (pairs : List (Member × Value))
    (pair : FieldDef × Value) :
    addToOutline (listing table pairs) pair =
      listing table (pairs ++ [(pair.1.member, pair.2)]) := by
  ext1
  · have hbehind : ∀ b ∈ (listing table pairs).blocks.drop 2, b.tag ≠ .insertFields := by
      refine List.forall_mem_singleton.2 (show Tag.values ≠ .insertFields by decide)
    have hcolumns := Outline.blocks_enter (s := listing table pairs) [_] rfl hbehind
      (column pair.1)
    have hvalues := Outline.blocks_enter [_, _] hcolumns (List.forall_mem_nil _)
      (value pair.1 pair.2)
    refine hvalues.trans ?_
    simp only [listing, Listing.enter, List.zipIdx_append, List.zipIdx_singleton,
      List.map_append, List.map_singleton, Nat.zero_add]
    rfl
  · rfl
  · simp only [listing, addToOutline, Outline.enter, List.length_append, List.length_singleton]
    rfl

theorem foldl_addToOutline (table : String) (pairs : List (Member × Value))
    (more : List (FieldDef × Value)) :
    more.foldl addToOutline (listing table pairs) =
      listing table (pairs ++ more.map fun pair => (pair.1.member, pair.2)) := by
  induction more generalizing pairs with
  | nil => rw [List.foldl_nil, List.map_nil, List.append_nil]
  | cons pair more ih =>
    rw [List.foldl_cons, addToOutline_listing, ih, List.append_assoc, List.map_cons]
    rfl

theorem drawn_ofInstance (c : Compiler) (e : Entity) (t : Target) :
    Drawn (ofInstance c e t.values).draft (listing e.name (t.row e)) [.insertFields, .values] := by
  have hdrawn := (ofInstance c e t.values).drawn_draft
  have hpairs := map_pairs c e t.values []
  have hlisted : listed e t.values [] = t.row e := List.filter_eq_self.2 fun _ _ => rfl
  have hopening : (ofInstance c e t.values).outline = listing e.name [] := rfl
  rw [hopening, foldl_addToOutline, List.nil_append] at hdrawn
  rw [← hlisted, ← hpairs]
  exact hdrawn

theorem parts_listing {d : Draft} {table : String} {pairs : List (Member × Value)}
    (h : Drawn d (listing table pairs) [.insertFields, .values]) :
    d.parts =
      [.text 1 .insert ("INSERT INTO " ++ table),
        .list 2 .insertFields
          (pairs.zipIdx.map fun a => .field (4 + 2 * a.2) (.named a.1.1.name)),
        .list 3 .values
          (pairs.zipIdx.map fun a => .parameter (4 + 2 * a.2 + 1) .plain (written a.1))] := by
  rw [h.draft_eq]
  change [_, Block.part (.listing _), Block.part (.listing _)] = _
  simp only [Block.part, List.map_map]
  rfl

theorem insertedFor_ofInstance (c : Compiler) {e : Entity} {t : Target} (h : t.Fits e)
    {pair : Member × Value} (hpair : pair ∈ t.row e) :
    (ofInstance c e t.values).draft.toTree.insertedFor pair.1.name = [written pair] := by
  have hparts := parts_listing (drawn_ofInstance c e t)
  have hcolumns : ((ofInstance c e t.values).draft.partsOf .insertFields).flatMap Part.children =
      (t.row e).zipIdx.map fun a => .field (4 + 2 * a.2) (.named a.1.1.name) := by
    rw [Tree.partsOf, hparts]
    exact List.flatMap_singleton _ _
  have hvalues : ((ofInstance c e t.values).draft.partsOf .values).flatMap Part.children =
      (t.row e).zipIdx.map fun a => .parameter (4 + 2 * a.2 + 1) .plain (written a.1) := by
    rw [Tree.partsOf, hparts]
    exact List.flatMap_singleton _ _
  have hbeside (a : (Member × Value) × Nat) :
      (if ((Part.field (4 + 2 * a.2) (.named a.1.1.name)).field?.map ColumnRef.field) =
          some pair.1.name then
        (Part.parameter (4 + 2 * a.2 + 1) .plain (written a.1)).parameter?.toList else []) =
      if a.1.1.name = pair.1.name then [written a.1] else [] :=
    if_congr Option.some_inj rfl rfl
  rw [Tree.insertedFor, hcolumns, hvalues, List.zip_map', List.flatMap_map]
  simp only [hbeside]
  rw [← List.flatMap_map Prod.fst fun b : Member × Value =>
    if b.1.name = pair.1.name then [written b] else [], List.zipIdx_map_fst]
  exact flatMap_eq_of_nodup_map h.nodup_row hpair fun b => [written b]

end Insert

/-! ### Restrictions -/

namespace Key

def compared (pair : Member × Value) : Parameter where
  source := .value pair.2

theorem comparedWith_said (table member : String) (pair : Member × Value) :
    (said table pair).comparedWith member =
      if pair.1.name = member then
        match pair.2 with
        | .null => []
        | _ => [compared pair]
      else [] := by
  rcases pair with ⟨m, v⟩
  cases v with
  | null => exact (ite_self []).symm
  | _ => rfl

theorem comparedWith_foldl (member : String) (first : Operand) (rest : List Operand) :
    (rest.foldl (.binary .and) first).comparedWith member =
      (first :: rest).flatMap (Operand.comparedWith member) := by
  induction rest generalizing first with
  | nil => exact (List.append_nil _).symm
  | cons next rest ih =>
    rw [List.foldl_cons, ih, List.flatMap_cons, List.flatMap_cons, List.flatMap_cons,
      ← List.append_assoc]
    rfl

theorem comparedWith_conjunction {e : Entity} {t : Target} (h : t.Fits e)
    {first pair : Member × Value} {rest : List (Member × Value)}
    (haddressed : t.addressed e = first :: rest) (hpair : pair ∈ t.addressed e)
    (hnull : pair.2 ≠ .null) :
    ((rest.map (said e.name)).foldl (.binary .and) (said e.name first)).comparedWith pair.1.name =
      [compared pair] := by
  have hnodup : ((t.addressed e).map fun pair => pair.1.name).Nodup :=
    h.nodup_row.sublist (List.filter_sublist.map _)
  rw [comparedWith_foldl, ← List.map_cons, ← haddressed, List.flatMap_map]
  simp only [comparedWith_said]
  rw [flatMap_eq_of_nodup_map hnodup hpair]
  rcases pair with ⟨m, v⟩
  cases v with
  | null => exact absurd rfl hnull
  | _ => rfl

end Key

theorem Tree.restrictedTo_of_clause {t : Tree} {table : String} (key : Key)
    {first : Member × Value} {rest : List (Member × Value)}
    (h : t.partsOf .whereClause = [.clause key .whereClause none none (Part.ofAtoms (key + 1)
      ((Scope.ofTable table).atoms (Key.conjunction first rest)).value)]) :
    t.RestrictedTo ((rest.map (Key.said table)).foldl (.binary .and) (Key.said table first)) :=
  ⟨_, h, Key.reads_predicate table first rest _⟩

theorem Dialect.some_written {v : Value} (hraw : ∀ text, v ≠ .raw text) (d : Dialect)
    (declared : Option ColumnType) : some (d.written v declared) = d.literal? v declared := by
  rcases Option.isSome_iff_exists.1 (literal?_isSome hraw d declared) with ⟨text, htext⟩
  rw [written, htext]
  rfl

/-- A value of a member that the row is found by is written into the row and compared with its
column, each time as a literal. The literals are the same unless the member is a truth value and the
value a number other than 0 and 1. -/
theorem key_literals_agree_iff (c : Compiler) {e : Entity} {t : Target} (h : t.Fits e) :
    ∃ inserted updated deleted said,
      (Insert.ofInstance c e t.values).compile.outcome = .ok inserted ∧
      (Update.ofInstance c e t.values t.key).outcome = .ok updated ∧
      (Delete.ofInstance c e t.values t.key).outcome = .ok deleted ∧
      updated.draft.toTree.RestrictedTo said ∧ deleted.draft.toTree.RestrictedTo said ∧
      ∀ pair ∈ t.addressed e, pair.2 ≠ .null → (∀ text, pair.2 ≠ .raw text) →
        ∃ written compared, inserted.tree.insertedFor pair.1.name = [written] ∧
          said.comparedWith pair.1.name = [compared] ∧
          ∀ v, some (written.render v).value =
              v.dialect.literal? pair.2 (some pair.1.columnType) ∧
            some (compared.render v).value = v.dialect.literal? pair.2 none ∧
            ((compared.render v).value = (written.render v).value ↔
              ¬(pair.1.columnType = .bool ∧ ∃ n, pair.2 = .int n ∧ n ≠ 0 ∧ n ≠ 1)) := by
  rcases Update.outcome_ofInstance c h with ⟨first, rest, q, haddressed, hq, -, -, hdrawn⟩
  rcases Delete.outcome_ofInstance c h with ⟨first', rest', q', haddressed', hq', -, hparts'⟩
  -- both restrictions are made from the same members
  rw [haddressed] at haddressed'
  cases haddressed'
  have hcompiled := Outline.outcome_compile (Insert.listing e.name (t.row e)) c
  rw [← (Insert.drawn_ofInstance c e t).draft_eq] at hcompiled
  have hupdated : q.draft.toTree.RestrictedTo
      ((rest.map (Key.said e.name)).foldl (.binary .and) (Key.said e.name first)) := by
    refine Tree.restrictedTo_of_clause (3 + (t.assigned e).length) ?_
    rw [Tree.partsOf, Update.parts_addressing hdrawn]
    rfl
  have hdeleted : q'.draft.toTree.RestrictedTo
      ((rest.map (Key.said e.name)).foldl (.binary .and) (Key.said e.name first)) := by
    refine Tree.restrictedTo_of_clause 3 ?_
    rw [Tree.partsOf, hparts']
    rfl
  refine ⟨_, q, q', _, hcompiled, hq, hq', hupdated, hdeleted, fun pair hpair hnull hraw => ?_⟩
  refine ⟨Insert.written pair, Key.compared pair,
    Insert.insertedFor_ofInstance c h (List.mem_filter.1 hpair).1,
    Key.comparedWith_conjunction h haddressed hpair hnull, fun v => ?_⟩
  have hliteral := Dialect.some_written hraw v.dialect
  refine ⟨hliteral _, hliteral none, ?_⟩
  rw [← Dialect.literal?_declared_iff v.dialect, ← hliteral none, ← hliteral, Option.some_inj]
  rfl

/-- A string that is written alike, and a number for a truth value. -/
theorem key_literals_agree_iff_order :
    let order : Entity := ⟨"Order", [⟨"Id", .bool, false⟩, ⟨"OrderId", .string, false⟩,
      ⟨"Note", .string, true⟩]⟩
    let t : Target := { values := [.int 5, .string "O'Neil", .null] }
    t.Fits order ∧ ∃ inserted updated deleted said,
      (Insert.ofInstance {} order t.values).compile.outcome = .ok inserted ∧
      (Update.ofInstance {} order t.values none).outcome = .ok updated ∧
      (Delete.ofInstance {} order t.values none).outcome = .ok deleted ∧
      updated.draft.toTree.RestrictedTo said ∧ deleted.draft.toTree.RestrictedTo said ∧
      (∃ written compared, inserted.tree.insertedFor "OrderId" = [written] ∧
        said.comparedWith "OrderId" = [compared] ∧
        ∀ v, (compared.render v).value = (written.render v).value) ∧
      ∃ written compared, inserted.tree.insertedFor "Id" = [written] ∧
        said.comparedWith "Id" = [compared] ∧
        ∀ v, (compared.render v).value ≠ (written.render v).value := by
  intro order t
  have hfits : t.Fits order := ⟨by decide, rfl, by decide⟩
  have hid : (⟨"Id", .bool, false⟩, .int 5) ∈ t.addressed order :=
    List.mem_filter.2 ⟨List.mem_cons_self, by decide⟩
  have horderId : (⟨"OrderId", .string, false⟩, .string "O'Neil") ∈ t.addressed order :=
    List.mem_filter.2 ⟨List.mem_cons_of_mem _ List.mem_cons_self, by decide⟩
  rcases key_literals_agree_iff {} hfits with
    ⟨inserted, updated, deleted, said, hinserted, hupdated, hdeleted, hsaid, hsaid', hliterals⟩
  rcases hliterals _ hid (by simp) (by simp) with ⟨written, compared, hwritten, hcompared, htexts⟩
  rcases hliterals _ horderId (by simp) (by simp) with ⟨written', compared', hwritten', hcompared', htexts'⟩
  refine ⟨hfits, inserted, updated, deleted, said, hinserted, hupdated, hdeleted, hsaid, hsaid',
    ⟨written', compared', hwritten', hcompared', fun v => (htexts' v).2.2.2 (by simp)⟩,
    written, compared, hwritten, hcompared, fun v hsame => ?_⟩
  exact (htexts v).2.2.1 hsame ⟨rfl, 5, rfl, by decide, by decide⟩

/-- The row is inserted with a `1` and looked for with a `5`. -/
theorem row_with_truth_value_missed :
    let order : Entity := ⟨"Orders", [⟨"Paid", .bool, false⟩, ⟨"Note", .string, true⟩]⟩
    let t : Target := { values := [.int 5, .string "late"], key := some "Paid" }
    let sql (s : Statement) := (s.compile {}).result?.map Compiled.sql
    sql (.insert order t.values []) = some "INSERT INTO Orders (Paid, Note) VALUES (1, 'late')" ∧
      sql (.update order (some t) []) =
        some "UPDATE Orders SET Note='late' WHERE (Orders.Paid = 5)" ∧
      sql (.delete order (some t) []) = some "DELETE FROM Orders WHERE (Orders.Paid = 5)" := by
  decide +kernel

end SqlComposer
