import Mathlib.Data.List.Forall2
import SqlComposer.Proofs.Table.Written

/-!
# What each call adds to a statement

Every call adds parts of its own to those that are there, whatever they are: a constraint, a column,
or an alteration, of which there is one at most. Only columns are put between the parts of other
calls.
-/
namespace SqlComposer

def Tag.alters : Tag → Bool
  | .alterTable | .addColumn | .alterColumn | .dropColumn => true
  | _ => false

def Part.leafText (v : View) : Part → String
  | .leaf h content => (content.render v h).value
  | .group .. => ""

namespace Table

namespace Request

/-- What an alteration says behind the name of the table. -/
def operation? (d : Dialect) (s : Schema) : Request → Option String
  | .column name .add type nullable =>
    (declared? s (.column name .declare type nullable)).map fun decl =>
      d.addColumnKeyword ++ " " ++ columnText d decl
  | .column name .alter type nullable =>
    (declared? s (.column name .declare type nullable)).map fun decl =>
      "ALTER COLUMN " ++ columnText d decl
  | .column name .drop _ _ => some ("DROP COLUMN " ++ name)
  | .column _ .declare _ _ | .collect _ => none

def fragments (d : Dialect) (s : Schema) (request : Request) : List String :=
  match request.operation? d s with
  | some operation => ["ALTER TABLE " ++ s.name ++ " ", operation]
  | none => (request.constraint? <|> (request.declared? s).map (columnText d)).toList

end Request

inductive Makes (d : Dialect) (s : Schema) : Request → List Part → Prop where
  | item (key : Key) {call : Call} {item : Item} :
      call.item? = some item → Makes d s (.collect call) [item.part key]
  | nothing {call : Call} : call.item? = none → Makes d s (.collect call) []
  | column (key : Key) {request : Request} {decl : ColumnDecl} :
      request.declared? s = some decl → Makes d s request [.column key decl]
  | alteration (key : Key) {request : Request} {operation : String} {p : Part} :
      request.operation? d s = some operation → p.tag.alters = true →
      (∀ v : View, v.dialect = d → p.leafText v = operation) →
      Makes d s request [.text key .alterTable s.name, p]

variable {q q' : Table} {c : Compiler} {s : Schema} {request : Request} {requests : List Request}
  {made : List (List Part)} {ps : List Part} {d : Dialect} {decl : ColumnDecl} {name : String}
  {type : Option ColumnType} {nullable : Option Bool}

/-! ### One call -/

structure Adds (q q' : Table) (request : Request) (ps : List Part) : Prop where
  compiler : q'.compiler = q.compiler
  schema : q'.schema = q.schema
  makes : Makes q.compiler.dialect q.schema request ps
  perm : q'.draft.parts.Perm (q.draft.parts ++ ps)
  beside : q'.draft.parts.filter (fun p => p.tag != .column) =
    q.draft.parts.filter (fun p => p.tag != .column) ++ ps.filter fun p => p.tag != .column
  alone : (request.operation? q.compiler.dialect q.schema).isSome → q.draft.contains .alterTable = false

theorem Adds.ofAppend (hcompiler : q'.compiler = q.compiler) (hschema : q'.schema = q.schema)
    (hparts : q'.draft.parts = q.draft.parts ++ ps)
    (hmakes : Makes q.compiler.dialect q.schema request ps)
    (halone : (request.operation? q.compiler.dialect q.schema).isSome →
      q.draft.contains .alterTable = false) : Adds q q' request ps where
  compiler := hcompiler
  schema := hschema
  makes := hmakes
  perm := .of_eq hparts
  beside := by rw [hparts, List.filter_append]
  alone := halone

theorem adds_item (q : Table) (call : Call) {item : Item} (h : call.item? = some item) :
    Adds q { q with draft := q.draft.spend 1 (q.draft.add (item.part q.draft.nextKey)) }
      (.collect call) [item.part q.draft.nextKey] :=
  .ofAppend rfl rfl rfl (.item _ h) nofun

theorem adds_collect {call : Call} (h : call.apply q = .ok q') :
    ∃ ps, Adds q q' (.collect call) ps := by
  obtain ⟨item, hitem, -, rfl⟩ | ⟨member, rfl, rfl⟩ := collect_eq_ok h
  · exact ⟨_, adds_item q call hitem⟩
  · exact ⟨[], .ofAppend rfl rfl (List.append_nil _).symm (.nothing rfl) fun h => by cases h⟩

theorem filter_insertBehind_of_neg {α : Type} {keep : α → Bool} {a : α} (ha : keep a = false)
    (p : α → Bool) (l : List α) : (insertBehind p a l).filter keep = l.filter keep := by
  obtain ⟨left, right, rfl, hinsert⟩ := exists_insertBehind p l
  rw [hinsert, List.filter_append, List.filter_append, List.filter_cons_of_neg (by simp [ha])]

theorem Request.operation?_eq_none (h : request.declared? s = some decl) (d : Dialect) :
    request.operation? d s = none := by
  obtain ⟨⟨name, type, nullable, rfl⟩, -⟩ := exists_of_declared? h
  rfl

theorem adds_declareColumn (h : request.declared? q.schema = some decl) :
    Adds q (q.declareColumn decl) request [.column q.draft.nextKey decl] where
  compiler := rfl
  schema := rfl
  makes := .column _ h
  perm := insertBehind_perm ..
  beside := (filter_insertBehind_of_neg rfl _ _).trans (List.append_nil _).symm
  alone hoperation := by
    rw [Request.operation?_eq_none h] at hoperation
    cases hoperation

theorem adds_altered {opened : Table} (hbegin : q.beginAlter = .ok opened) {p : Part}
    {operation : String} (hoperation : request.operation? q.compiler.dialect q.schema = some operation)
    (htag : p.tag.alters = true)
    (htext : ∀ v : View, v.dialect = q.compiler.dialect → p.leafText v = operation) :
    Adds q (q.altered p) request [.text q.draft.nextKey .alterTable q.schema.name, p] := by
  refine .ofAppend rfl rfl (List.append_assoc ..) (.alteration _ hoperation htag htext) fun _ => ?_
  rw [beginAlter] at hbegin
  split_ifs at hbegin with hcontains
  simpa using hcontains

theorem isNullable_columnProperties (q : Table) (name : String) (type : ColumnType)
    (nullable : Option Bool) :
    (q.columnProperties name type nullable).isNullable = nullable.getD true := by
  cases nullable with
  | none => rfl
  | some b => cases b <;> rfl

theorem render_addColumn (ps : Properties) (v : View) :
    ps.render v .addColumn = v.dialect.addColumnKeyword ++ " " ++ (ps.get? .memberName).getD "" ++
      " " ++ (ps.get? .memberType).getD "" ++ notNull ps.isNullable := rfl

theorem render_alterColumn (ps : Properties) (v : View) :
    ps.render v .alterColumn = "ALTER COLUMN " ++ (ps.get? .memberName).getD "" ++ " " ++
      (ps.get? .memberType).getD "" ++ notNull ps.isNullable := rfl

theorem render_columnProperties (q : Table) (name : String) (type : ColumnType)
    (nullable : Option Bool) (v : View) (hv : v.dialect = q.compiler.dialect) :
    let ps := q.columnProperties name type nullable
    let decl : ColumnDecl := { name, columnType := type, nullable := nullable.getD true }
    ps.render v .addColumn =
        q.compiler.dialect.addColumnKeyword ++ " " ++ columnText q.compiler.dialect decl ∧
      ps.render v .alterColumn = "ALTER COLUMN " ++ columnText q.compiler.dialect decl := by
  intro ps decl
  have hname : ps.get? .memberName = some name := by cases nullable <;> rfl
  have htype : ps.get? .memberType = some (q.compiler.dialect.typeKeyword type) := by
    cases nullable <;> rfl
  have hnullable : ps.isNullable = nullable.getD true := isNullable_columnProperties q name type nullable
  rw [render_addColumn, render_alterColumn, hname, htype, hnullable, hv]
  simp [columnText, notNull, String.append_assoc, decl]

theorem adds_alterWith {tag : Tag} {ps : Properties} {operation : String}
    (h : q.alterWith tag ps = .ok q')
    (hoperation : request.operation? q.compiler.dialect q.schema = some operation)
    (htag : tag.alters = true)
    (htext : ∀ v : View, v.dialect = q.compiler.dialect → ps.render v tag = operation) :
    ∃ ps, Adds q q' request ps := by
  have hq' := alterWith_eq_ok h
  rw [alterWith] at h
  cases hbegin : q.beginAlter with
  | error =>
    rw [hbegin] at h
    cases h
  | ok opened =>
    rw [hq']
    exact ⟨_, adds_altered hbegin hoperation htag htext⟩

theorem adds_column {change : ColumnChange} (h : q.column name change type nullable = .ok q') :
    ∃ ps, Adds q q' (.column name change type nullable) ps := by
  rw [Table.column] at h
  split_ifs at h
  simp only at h
  split at h
  · rename_i htype _
    rw [← Except.ok.inj h]
    refine ⟨_, adds_declareColumn ?_⟩
    rw [Request.declared?, htype]
    rfl
  · cases h
  · rename_i type' htype _
    refine adds_alterWith h ?_ rfl fun v hv =>
      (render_columnProperties q name type' _ v hv).1
    rw [Request.operation?, Request.declared?, htype]
    rfl
  · rename_i type' htype _
    refine adds_alterWith h ?_ rfl fun v hv =>
      (render_columnProperties q name type' _ v hv).2
    rw [Request.operation?, Request.declared?, htype]
    rfl
  · cases h
  · cases h
  · cases hbegin : q.beginAlter with
    | error =>
      rw [hbegin] at h
      cases h
    | ok opened =>
      rw [hbegin, beginAlter_eq_ok hbegin] at h
      rw [← Except.ok.inj h]
      exact ⟨_, adds_altered (p := .text (q.draft.nextKey + 1) .dropColumn name) hbegin rfl rfl
        fun _ _ => rfl⟩

theorem adds_apply (h : request.apply q = .ok q') : ∃ ps, Adds q q' request ps := by
  cases request with
  | collect call => exact adds_collect h
  | column => exact adds_column h

/-! ### All calls -/

structure Made (q : Table) (c : Compiler) (s : Schema) (requests : List Request)
    (made : List (List Part)) : Prop where
  compiler : q.compiler = c
  schema : q.schema = s
  makes : List.Forall₂ (Makes c.dialect s) requests made
  perm : q.draft.parts.Perm made.flatten
  beside : q.draft.parts.filter (fun p => p.tag != .column) =
    made.flatten.filter fun p => p.tag != .column
  single : (requests.filterMap (Request.operation? c.dialect s)).length ≤ 1

theorem Makes.any_alterTable (h : Makes d s request ps) :
    ps.any (fun p => p.tag == .alterTable) = (request.operation? d s).isSome := by
  cases h with
  | @item key call item hitem =>
    cases item <;> rfl
  | nothing => rfl
  | column key hdeclared =>
    rw [Request.operation?_eq_none hdeclared]
    rfl
  | alteration key hoperation =>
    rw [hoperation]
    rfl

theorem Makes.map_leafText_alters (h : Makes d s request ps) {v : View} (hv : v.dialect = d) :
    (ps.filter fun p => p.tag.alters).map (Part.leafText v) =
      (request.operation? d s).toList.flatMap
        fun operation => ["ALTER TABLE " ++ s.name ++ " ", operation] := by
  cases h with
  | @item key call item hitem =>
    cases item <;> rfl
  | nothing => rfl
  | column key hdeclared =>
    rw [Request.operation?_eq_none hdeclared]
    rfl
  | @alteration key _ operation p hoperation htag htext =>
    have hboth : [Part.text key .alterTable s.name, p].filter (fun p => p.tag.alters) =
        [Part.text key .alterTable s.name, p] :=
      List.filter_eq_self.2 (List.forall_mem_cons.2 ⟨rfl, List.forall_mem_singleton.2 htag⟩)
    rw [hoperation, hboth, List.map_cons, List.map_singleton, htext v hv]
    rfl

theorem Made.contains_alterTable (h : q.Made c s requests made) :
    q.draft.contains .alterTable =
      requests.any fun request => (request.operation? c.dialect s).isSome := by
  have hany {requests : List Request} {made : List (List Part)}
      (h : List.Forall₂ (Makes c.dialect s) requests made) :
      made.any (fun ps => ps.any fun p => p.tag == .alterTable) =
        requests.any fun request => (request.operation? c.dialect s).isSome := by
    induction h with
    | nil => rfl
    | cons hmakes _ ih => rw [List.any_cons, List.any_cons, hmakes.any_alterTable, ih]
  rw [Tree.contains, h.perm.any_eq, List.any_flatten, hany h.makes]

theorem Made.step (h : q.Made c s requests made) (hadds : Adds q q' request ps) :
    q'.Made c s (requests ++ [request]) (made ++ [ps]) where
  compiler := hadds.compiler.trans h.compiler
  schema := hadds.schema.trans h.schema
  makes := List.rel_append h.makes (.cons (h.compiler ▸ h.schema ▸ hadds.makes) .nil)
  perm := by
    rw [List.flatten_append, List.flatten_singleton]
    exact hadds.perm.trans (h.perm.append_right ps)
  beside := by
    rw [List.flatten_append, List.flatten_singleton, List.filter_append, ← h.beside]
    exact hadds.beside
  single := by
    rw [filterMap_concat]
    cases hoperation : request.operation? c.dialect s with
    | none => simpa using h.single
    | some operation =>
      -- the statement had no alteration yet
      have halone := hadds.alone (by rw [h.compiler, h.schema, hoperation]; rfl)
      rw [h.contains_alterTable, List.any_eq_false] at halone
      rw [List.filterMap_eq_nil_iff.2 fun request hrequest => by simpa using halone request hrequest]
      exact Nat.le_refl 1

theorem Made.after (h : q.Made c s requests made) {more : List Request}
    (hmore : more.foldlM Request.apply q = .ok q') :
    ∃ made', q'.Made c s (requests ++ more) made' := by
  refine foldlM_induction (I := fun requests q => ∃ made, q.Made c s requests made) requests ?_
    ⟨made, h⟩ hmore
  rintro requests request q q' ⟨made, h⟩ hrequest
  obtain ⟨ps, hadds⟩ := adds_apply hrequest
  exact ⟨_, h.step hadds⟩

theorem made_of_requested (h : requested c s requests = .ok q) :
    ∃ made, q.Made c s requests made := by
  have hstart : (Table.ofSchema c s).Made c s [] [] :=
    ⟨rfl, rfl, .nil, .refl _, rfl, Nat.zero_le 1⟩
  exact hstart.after h

theorem filter_alters_beside (l : List Part) :
    (l.filter fun p => p.tag != .column).filter (fun p => p.tag.alters) =
      l.filter fun p => p.tag.alters := by
  rw [List.filter_filter]
  refine List.filter_congr fun p _ => ?_
  cases p.tag <;> rfl

theorem Made.map_leafText_alters (h : q.Made c s requests made) {v : View}
    (hv : v.dialect = c.dialect) :
    (q.draft.parts.filter fun p => p.tag.alters).map (Part.leafText v) =
      (requests.filterMap (Request.operation? c.dialect s)).flatMap
        fun operation => ["ALTER TABLE " ++ s.name ++ " ", operation] := by
  have hmade {requests : List Request} {made : List (List Part)}
      (h : List.Forall₂ (Makes c.dialect s) requests made) :
      (made.flatten.filter fun p => p.tag.alters).map (Part.leafText v) =
        (requests.filterMap (Request.operation? c.dialect s)).flatMap
          fun operation => ["ALTER TABLE " ++ s.name ++ " ", operation] := by
    induction h with
    | nil => rfl
    | cons hmakes _ ih =>
      rw [List.flatten_cons, List.filter_append, List.map_append, ih, hmakes.map_leafText_alters hv,
        ← List.flatMap_append, List.filterMap_cons]
      cases Request.operation? c.dialect s _ <;> rfl
  rw [← filter_alters_beside, h.beside, filter_alters_beside, hmade h.makes]

end Table

end SqlComposer
