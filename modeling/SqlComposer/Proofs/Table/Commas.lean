import SqlComposer.Proofs.Draft.Distinct
import SqlComposer.Proofs.Table.Items

/-!
# Commas between table items

A comma stands behind a column or a key of a definition exactly if another item follows it depth
first, in whatever groups the two are nested and whatever stands around them. It is found anew
whenever the tree is written, so no edit leaves a wrong comma behind.
-/
namespace SqlComposer

namespace Part

inductive IsItem (d : Dialect) : Part → String → Prop where
  | column {head : Head} (c : ColumnDecl) :
      head.tag = .column → IsItem d (.leaf head (.column c)) (Table.columnText d c)
  | tableKey {head : Head} (text : String) :
      head.tag = .tableKey → IsItem d (.leaf head (.tableKey text)) text

def EndsItems (v : View) (p : Part) : Prop :=
  ∃ text, p.IsItem v.dialect text ∧ (p.render v).outcome = .ok text

namespace IsItem

variable {v : View} {d : Dialect} {p : Part} {text : String}

theorem isTableItem (h : p.IsItem d text) : p.tag.isTableItem = true := by
  cases h with
  | column _ htag | tableKey _ htag => rw [tag, head, htag, Tag.isTableItem]

theorem outcome_render (h : p.IsItem v.dialect text) :
    (p.render v).outcome = .ok (text ++ itemSeparator v p.key) := by
  cases h with
  | column c _ =>
    rw [← Table.Entry.render_column]
    rfl
  | tableKey => rfl

end IsItem

end Part

namespace Tree

/-- Commas separate the items: each item is followed by one exactly if another item comes behind
it. Only the last item of the whole tree can be without, so it is the only one. -/
structure Separated (t : Tree) (v : View) : Prop where
  written : ∀ l p r text, t.flatten = l ++ p :: r → p.IsItem v.dialect text →
    (p.render v).outcome = .ok (text ++ if r.any fun q => q.tag.isTableItem then ", " else "")
  last : ∀ p ∈ t.flatten, p.EndsItems v →
    (t.flatten.filter fun q => q.tag.isTableItem).getLast? = some p
  unique : ∀ p ∈ t.flatten, ∀ q ∈ t.flatten, p.EndsItems v → q.EndsItems v → p = q

variable {t : Tree} {l r : List Part} {p : Part}

theorem itemSeparator_view (hkeys : t.keys.Nodup) (hsplit : t.flatten = l ++ p :: r)
    (hp : p.tag.isTableItem = true) (dialect : Dialect) (qualify : Bool) :
    itemSeparator (t.view dialect qualify) p.key =
      if r.any fun q => q.tag.isTableItem then ", " else "" := by
  have hbehind : p.key ∉ r.map Part.key := by
    rw [keys, Part.keysAll, ← flatten, hsplit, List.map_append, List.map_cons] at hkeys
    exact (List.nodup_cons.1 hkeys.of_append_right).1
  rw [itemSeparator, view, hsplit]
  by_cases hr : (r.any fun q => q.tag.isTableItem) = true
  · obtain ⟨front, q, back, rfl, hq, hback⟩ := exists_last_of_any hr
    have hlast := getLast?_filter_append_cons (p := fun q : Part => q.tag.isTableItem)
      (l ++ p :: front) hq hback
    rw [List.append_assoc, List.cons_append] at hlast
    have hne : ¬some q.key = some p.key := fun hkey =>
      hbehind (Option.some.inj hkey ▸ List.mem_map_of_mem (List.mem_append_cons_self))
    rw [if_pos hr, hlast]
    exact if_neg hne
  · rw [if_neg hr, getLast?_filter_append_cons (p := fun q : Part => q.tag.isTableItem) l hp
      (by simpa using hr)]
    exact if_pos rfl

theorem separated_of_nodup (hkeys : t.keys.Nodup) (dialect : Dialect) (qualify : Bool) :
    t.Separated (t.view dialect qualify) := by
  have hwritten : ∀ l p r text, t.flatten = l ++ p :: r → p.IsItem dialect text →
      (p.render (t.view dialect qualify)).outcome =
        .ok (text ++ if r.any fun q => q.tag.isTableItem then ", " else "") := by
    intro l p r text hsplit hitem
    rw [← itemSeparator_view hkeys hsplit hitem.isTableItem dialect qualify]
    exact hitem.outcome_render
  have hlast : ∀ p ∈ t.flatten, p.EndsItems (t.view dialect qualify) →
      (t.flatten.filter fun q => q.tag.isTableItem).getLast? = some p := by
    rintro p hp ⟨text, hitem, hrender⟩
    obtain ⟨l, r, hsplit⟩ := List.append_of_mem hp
    have htext := Except.ok.inj ((hwritten l p r text hsplit hitem).symm.trans hrender)
    have hr : (r.any fun q => q.tag.isTableItem) = false := by
      cases hr : r.any fun q => q.tag.isTableItem with
      | false => rfl
      | true =>
        have hlength := congrArg String.length htext
        simp [hr] at hlength
    rw [hsplit]
    exact getLast?_filter_append_cons l hitem.isTableItem (by simpa using hr)
  exact ⟨hwritten, hlast, fun p hp q hq hpEnds hqEnds =>
    Option.some.inj ((hlast p hp hpEnds).symm.trans (hlast q hq hqEnds))⟩

end Tree

/-- In a tree whose keys differ, commas stand between the items of its definition and nowhere else,
at any depth. So they do after any edits of a tree that was empty, which keep the keys apart. -/
theorem items_are_separated :
    (∀ (t : Tree) (dialect : Dialect) (qualify : Bool), t.keys.Nodup →
      t.Separated (t.view dialect qualify)) ∧
    ∀ (start : Draft) (edits : List Edit) (dialect : Dialect) (qualify : Bool), start.parts = [] →
      Edit.FitAll start edits →
      (Edit.run start edits).keys.Nodup ∧
        (Edit.run start edits).Separated ((Edit.run start edits).view dialect qualify) := by
  refine ⟨fun t dialect qualify hkeys => Tree.separated_of_nodup hkeys dialect qualify,
    fun start edits dialect qualify hempty hfit => ?_⟩
  have hstart : Edit.Distinct start := by
    constructor <;> simp [Tree.keys, hempty]
  have hkeys := (Edit.distinct_run hstart hfit).nodup
  exact ⟨hkeys, Tree.separated_of_nodup hkeys dialect qualify⟩

def Edit.defined : List Edit :=
  [.addText .createTable "CREATE TABLE Note (", .makeParts 6,
    .add (.column 2 { name := "Id", columnType := .int }),
    .add (.clause 3 .plain none none
      [.column 4 { name := "Body", columnType := .string }, .text 5 .plain " "]),
    .addToLast (.tableKey 6 "Id" "PRIMARY KEY (Id)") .plain,
    .add (.tableKey 7 "Body" "FOREIGN KEY(Body) REFERENCES Page(Body)"),
    .addText .plain ")", .remove 7]

theorem items_are_separated_nested :
    let t := (Edit.run .empty Edit.defined).toTree
    let key : Part := .tableKey 6 "Id" "PRIMARY KEY (Id)"
    Edit.FitAll .empty Edit.defined ∧ t.keys.Nodup ∧
      ((Part.column 4 { name := "Body", columnType := .string }).render
        (t.view .sqlite true)).outcome = .ok "Body varchar(1000), " ∧
      (key.render (t.view .sqlite true)).outcome = .ok "PRIMARY KEY (Id)" ∧
      (t.flatten.filter fun q => q.tag.isTableItem).getLast? = some key := by
  intro t key
  have hfit : Edit.FitAll .empty Edit.defined := by decide
  obtain ⟨hkeys, hrun⟩ := items_are_separated.2 .empty Edit.defined .sqlite true rfl hfit
  have hcolumn := hrun.written
    [.text 1 .createTable "CREATE TABLE Note (", .column 2 { name := "Id", columnType := .int },
      .clause 3 .plain none none
        [.column 4 { name := "Body", columnType := .string }, .text 5 .plain " ", key]]
    (.column 4 { name := "Body", columnType := .string })
    [.text 5 .plain " ", key, .text 8 .plain ")"] _ rfl (.column _ rfl)
  have hkey := (items_are_separated.1 t .sqlite true hkeys).written
    [.text 1 .createTable "CREATE TABLE Note (", .column 2 { name := "Id", columnType := .int },
      .clause 3 .plain none none
        [.column 4 { name := "Body", columnType := .string }, .text 5 .plain " ", key],
      .column 4 { name := "Body", columnType := .string }, .text 5 .plain " "]
    key [.text 8 .plain ")"] _ rfl (.tableKey _ rfl)
  have hmem : key ∈ t.flatten := .tail _ (.tail _ (.tail _ (.tail _ (.tail _ (.head _)))))
  exact ⟨hfit, hkeys, hcolumn, hkey, hrun.last key hmem ⟨_, .tableKey _ rfl, hkey⟩⟩

end SqlComposer
