import Mathlib.Data.List.Range
import Mathlib.Data.List.TakeWhile
import SqlComposer.Proofs.Table.Flat

/-!
# What calls leave in a table

Declared columns stay together where the first of them was put: the parts of the calls before it
stand in front of them, and those of the calls after it behind them. Every other call leaves parts
of its own, which the definition passes over or writes as they are.
-/
namespace SqlComposer

namespace Part

def constraint? : Part → Option String
  | .leaf _ (.tableKey s) => some s
  | _ => none

def ignored? (p : Part) : Option String :=
  if p.tag = .ignoredColumn then p.id? else none

end Part

namespace Table

def requested (c : Compiler) (s : Schema) (requests : List Request) : Except Fault Table :=
  requests.foldlM Request.apply (.ofSchema c s)

namespace Request

/-- The column that a call declares. It is as the schema has it where the call does not say. -/
def declared? (s : Schema) : Request → Option ColumnDecl
  | .column name .declare type nullable =>
    (type <|> (s.field? name).map FieldDef.columnType).map fun type =>
      { name := name
        columnType := type
        nullable := (nullable <|> (s.field? name).map FieldDef.nullable).getD true }
  | _ => none

def constraint? : Request → Option String
  | .collect call => call.constraint?
  | .column .. => none

def ignored? : Request → Option String
  | .collect (.ignore member) => some member
  | _ => none

def numbered? : Request → Option String
  | .collect (.key member true) => some member
  | _ => none

def isAlteration : Request → Bool
  | .collect _ => false
  | .column _ change _ _ => change != .declare

def IsAccepted (s : Schema) : Request → Prop
  | .collect call => call ≠ .compositeKey []
  | .column name change type nullable => (declared? s (.column name change type nullable)).isSome

instance (s : Schema) : DecidablePred (IsAccepted s) := fun request =>
  match request with
  | .collect call => inferInstanceAs (Decidable (call ≠ .compositeKey []))
  | .column name change type nullable =>
    inferInstanceAs (Decidable ((declared? s (.column name change type nullable)).isSome))

theorem isAlteration_of_isAccepted {s : Schema} {request : Request} (h : request.IsAccepted s) :
    request.isAlteration = false := by
  cases request with
  | collect => rfl
  | column name change type nullable =>
    cases change with
    | declare => rfl
    | add | alter | drop => cases h

theorem exists_of_declared? {s : Schema} {request : Request} {decl : ColumnDecl}
    (h : request.declared? s = some decl) :
    (∃ name type nullable, request = .column name .declare type nullable) ∧
      decl.autoIncrement = false := by
  cases request with
  | collect => cases h
  | column name change type nullable =>
    cases change with
    | declare =>
      obtain ⟨_, -, rfl⟩ := Option.map_eq_some_iff.1 h
      exact ⟨⟨name, type, nullable, rfl⟩, rfl⟩
    | add | alter | drop => cases h

theorem autoIncrement_of_declared? {s : Schema} {request : Request} {decl : ColumnDecl}
    (h : request.declared? s = some decl) : decl.autoIncrement = false :=
  (exists_of_declared? h).2

theorem ignored?_eq_some {request : Request} {member : String} :
    request.ignored? = some member ↔ request = .collect (.ignore member) := by
  cases request with
  | collect call => cases call <;> simp [ignored?]
  | column => simp [ignored?]

theorem numbered?_eq_some {request : Request} {member : String} :
    request.numbered? = some member ↔ request = .collect (.key member true) := by
  cases request with
  | collect call =>
    cases call with
    | key _ autoIncrement => cases autoIncrement <;> simp [numbered?]
    | ignore | compositeKey | foreignKey => simp [numbered?]
  | column => simp [numbered?]

end Request

def declarations (s : Schema) (requests : List Request) : List ColumnDecl :=
  requests.filterMap (Request.declared? s)

/-- The declared columns whose names the schema does not know. -/
def extraColumns (s : Schema) (requests : List Request) : List ColumnDecl :=
  (declarations s requests).filter fun decl => (s.field? decl.name).isNone

def keptMembers (s : Schema) (requests : List Request) : List FieldDef :=
  s.fields.filter fun f => .collect (.ignore f.memberName) ∉ requests

def keyTexts (requests : List Request) : List String :=
  requests.filterMap Request.constraint?

/-- The calls ahead of the first one that declares a column. -/
def early (s : Schema) (requests : List Request) : List Request :=
  requests.takeWhile fun request => (request.declared? s).isNone

theorem mem_ignored {requests : List Request} {member : String} :
    member ∈ requests.filterMap Request.ignored? ↔ .collect (.ignore member) ∈ requests := by
  simp only [List.mem_filterMap, Request.ignored?_eq_some, exists_eq_right]

theorem mem_numbered {requests : List Request} {member : String} :
    member ∈ requests.filterMap Request.numbered? ↔ .collect (.key member true) ∈ requests := by
  simp only [List.mem_filterMap, Request.numbered?_eq_some, exists_eq_right]

theorem autoIncrement_of_mem_declarations {s : Schema} {requests : List Request}
    {decl : ColumnDecl} (h : decl ∈ declarations s requests) : decl.autoIncrement = false := by
  obtain ⟨request, -, hdeclared⟩ := List.mem_filterMap.1 h
  exact request.autoIncrement_of_declared? hdeclared

/-! ### Keys of parts -/

/-- Keys that were given out, each to one part, before the next one. -/
structure Given (next : Key) (keys : List Key) : Prop where
  nodup : keys.Nodup
  lt : ∀ key ∈ keys, key < next

section

variable {next : Key} {keys keys' : List Key}

theorem Given.perm (h : Given next keys) (hkeys : keys'.Perm keys) : Given next keys' :=
  ⟨hkeys.nodup_iff.2 h.nodup, fun key hkey => h.lt key (hkeys.mem_iff.1 hkey)⟩

theorem Given.append_range' (h : Given next keys) (n : Nat) :
    Given (next + n) (keys ++ List.range' next n) where
  nodup := by
    refine List.nodup_append.2 ⟨h.nodup, List.nodup_range', fun key hkey key' hkey' heq => ?_⟩
    have hlt := h.lt key hkey
    have hle := (List.mem_range'_1.1 hkey').1
    exact absurd (heq ▸ hlt) (Nat.not_lt.2 hle)
  lt := by
    intro key hkey
    rcases List.mem_append.1 hkey with hkey | hkey
    · exact Nat.lt_add_right n (h.lt key hkey)
    · exact (List.mem_range'_1.1 hkey).2

end

/-! ### Calls one by one -/

/-- A part beside the columns: neither one of them nor where a definition opens or closes. -/
structure IsMark (p : Part) : Prop where
  ne_column : (p.tag == .column) = false
  ne_createTable : (p.tag == .createTable) = false
  ne_plain : (p.tag == .plain) = false
  isSome_constraint? : p.constraint?.isSome = (p.tag == .tableKey)

structure Marks (request : Request) (marks : List Part) : Prop where
  isMark : ∀ p ∈ marks, IsMark p
  isEntry : request.isAlteration = false → ∀ p ∈ marks, ∃ e : Entry, e.part = p
  constraints : marks.filterMap Part.constraint? = request.constraint?.toList
  ignored : marks.filterMap Part.ignored? = request.ignored?.toList

structure Leaves (q q' : Table) (request : Request) (marks : List Part) : Prop where
  compiler : q'.compiler = q.compiler
  schema : q'.schema = q.schema
  shape : q'.draft.shape = q.draft.shape
  parts : q'.draft.parts = q.draft.parts ++ marks
  nextKey : q'.draft.nextKey = q.draft.nextKey + marks.length
  keys : marks.map Part.key = List.range' q.draft.nextKey marks.length
  autoIncrement : q'.autoIncrement = q.autoIncrement ++ request.numbered?.toList
  marks : Marks request marks

variable {q q' : Table} {call : Call} {name : String} {change : ColumnChange}
  {type : Option ColumnType} {nullable : Option Bool}

theorem item_cases {item : Item} (h : call.item? = some item) :
    (∃ member, call = .ignore member ∧ item = .ignored member) ∨
      ∃ text, item = .constraint call.id text ∧ call.constraint? = some text ∧
        (Request.collect call).ignored? = none := by
  cases call with
  | ignore member =>
    cases h
    exact .inl ⟨member, rfl, rfl⟩
  | compositeKey | foreignKey =>
    cases h
    exact .inr ⟨_, rfl, rfl, rfl⟩
  | key member autoIncrement =>
    cases autoIncrement <;> cases h
    exact .inr ⟨_, rfl, rfl, rfl⟩

theorem marks_item (key : Key) {item : Item} (h : call.item? = some item) :
    Marks (.collect call) [item.part key] := by
  have hentry : ∀ p ∈ [item.part key], ∃ e : Entry, e.part = p :=
    List.forall_mem_singleton.2 ⟨(key, item), rfl⟩
  rcases item_cases h with ⟨member, rfl, rfl⟩ | ⟨text, rfl, hconstraint, hignored⟩
  · exact ⟨List.forall_mem_singleton.2 ⟨rfl, rfl, rfl, rfl⟩, fun _ => hentry, rfl, rfl⟩
  · refine ⟨List.forall_mem_singleton.2 ⟨rfl, rfl, rfl, rfl⟩, fun _ => hentry, ?_, ?_⟩
    · rw [Request.constraint?, hconstraint]
      rfl
    · rw [hignored]
      rfl

theorem leaves_item (call : Call) {item : Item} (h : call.item? = some item)
    (hnumbered : (Request.collect call).numbered? = none) :
    Leaves q { q with draft := q.draft.spend 1 (q.draft.add (item.part q.draft.nextKey)) }
      (.collect call) [item.part q.draft.nextKey] where
  compiler := rfl
  schema := rfl
  shape := rfl
  parts := rfl
  nextKey := rfl
  keys := congrArg (fun key => [key]) (Entry.key_part (q.draft.nextKey, item))
  autoIncrement := by rw [hnumbered, Option.toList_none, List.append_nil]
  marks := marks_item _ h

theorem collect_eq_ok (h : call.apply q = .ok q') :
    (∃ item, call.item? = some item ∧ (Request.collect call).numbered? = none ∧
        q' = { q with draft := q.draft.spend 1 (q.draft.add (item.part q.draft.nextKey)) }) ∨
      ∃ member, call = .key member true ∧
        q' = { q with autoIncrement := q.autoIncrement ++ [member] } := by
  cases call with
  | ignore member =>
    cases h
    exact .inl ⟨_, rfl, rfl, rfl⟩
  | compositeKey members =>
    rw [Call.apply, Table.compositeKey] at h
    split_ifs at h
    cases h
    exact .inl ⟨_, rfl, rfl, rfl⟩
  | foreignKey member table reference =>
    cases h
    exact .inl ⟨_, rfl, rfl, rfl⟩
  | key member autoIncrement =>
    cases autoIncrement with
    | false =>
      cases h
      exact .inl ⟨_, rfl, rfl, rfl⟩
    | true =>
      cases h
      exact .inr ⟨member, rfl, rfl⟩

theorem leaves_collect (h : call.apply q = .ok q') : ∃ marks, Leaves q q' (.collect call) marks := by
  obtain ⟨item, hitem, hnumbered, rfl⟩ | ⟨member, rfl, rfl⟩ := collect_eq_ok h
  · exact ⟨_, leaves_item call hitem hnumbered⟩
  · have hmarks : Marks (.collect (.key member true)) [] :=
      ⟨List.forall_mem_nil _, fun _ => List.forall_mem_nil _, rfl, rfl⟩
    exact ⟨[], rfl, rfl, rfl, (List.append_nil _).symm, rfl, rfl, rfl, hmarks⟩

def altered (q : Table) (p : Part) : Table :=
  let d := q.draft.addText .alterTable q.schema.name
  { q with draft := d.spend 1 (d.add p) }

theorem beginAlter_eq_ok (h : q.beginAlter = .ok q') :
    q' = { q with draft := q.draft.addText .alterTable q.schema.name } := by
  rw [beginAlter] at h
  split_ifs at h
  exact (Except.ok.inj h).symm

theorem alterWith_eq_ok {tag : Tag} {ps : Properties} (h : q.alterWith tag ps = .ok q') :
    q' = q.altered (.properties (q.draft.nextKey + 1) tag ps) := by
  rw [alterWith] at h
  cases hbegin : q.beginAlter with
  | error =>
    rw [hbegin] at h
    cases h
  | ok opened =>
    rw [hbegin, beginAlter_eq_ok hbegin] at h
    exact (Except.ok.inj h).symm

theorem leaves_altered (hchange : change ≠ .declare) {p : Part}
    (hkey : p.key = q.draft.nextKey + 1) (hmark : IsMark p) (hconstraint : p.constraint? = none)
    (hignored : p.ignored? = none) :
    Leaves q (q.altered p) (.column name change type nullable)
      [.text q.draft.nextKey .alterTable q.schema.name, p] where
  compiler := rfl
  schema := rfl
  shape := rfl
  parts := List.append_assoc ..
  nextKey := rfl
  keys := congrArg (fun key => [q.draft.nextKey, key]) hkey
  autoIncrement := (List.append_nil _).symm
  marks :=
    { isMark := List.forall_mem_cons.2 ⟨⟨rfl, rfl, rfl, rfl⟩, List.forall_mem_singleton.2 hmark⟩
      isEntry := fun h => absurd (by simpa [Request.isAlteration] using h) hchange
      constraints := by
        rw [List.filterMap_cons_none rfl, List.filterMap_cons_none hconstraint]
        rfl
      ignored := by
        rw [List.filterMap_cons_none rfl, List.filterMap_cons_none hignored]
        rfl }

theorem column_eq_ok (h : q.column name change type nullable = .ok q') :
    (change = .declare ∧ ∃ decl,
      Request.declared? q.schema (.column name change type nullable) = some decl ∧
        q' = q.declareColumn decl) ∨
    (change ≠ .declare ∧ ∃ marks, Leaves q q' (.column name change type nullable) marks) := by
  rw [Table.column] at h
  split_ifs at h
  simp only at h
  split at h
  · rename_i htype _
    refine .inl ⟨rfl, _, ?_, (Except.ok.inj h).symm⟩
    rw [Request.declared?, htype]
    rfl
  · cases h
  · rw [alterWith_eq_ok h]
    exact .inr ⟨by decide, _, leaves_altered (by decide) rfl ⟨rfl, rfl, rfl, rfl⟩ rfl rfl⟩
  · rw [alterWith_eq_ok h]
    exact .inr ⟨by decide, _, leaves_altered (by decide) rfl ⟨rfl, rfl, rfl, rfl⟩ rfl rfl⟩
  · cases h
  · cases h
  · cases hbegin : q.beginAlter with
    | error =>
      rw [hbegin] at h
      cases h
    | ok opened =>
      rw [hbegin, beginAlter_eq_ok hbegin] at h
      rw [← Except.ok.inj h]
      have hdrop : Leaves q (q.altered (.text (q.draft.nextKey + 1) .dropColumn name))
          (.column name .drop type nullable) _ :=
        leaves_altered (by decide) rfl ⟨rfl, rfl, rfl, rfl⟩ rfl rfl
      exact .inr ⟨by decide, _, hdrop⟩

theorem apply_eq_ok {request : Request} (h : request.apply q = .ok q') :
    (∃ decl, request.declared? q.schema = some decl ∧ q' = q.declareColumn decl) ∨
      (request.declared? q.schema = none ∧ ∃ marks, Leaves q q' request marks) := by
  cases request with
  | collect call => exact .inr ⟨rfl, leaves_collect h⟩
  | column name change type nullable =>
    rcases column_eq_ok h with ⟨-, hdeclared⟩ | ⟨hchange, hleaves⟩
    · exact .inl hdeclared
    · refine .inr ⟨?_, hleaves⟩
      cases change with
      | declare => exact absurd rfl hchange
      | add | alter | drop => rfl

/-! ### All calls -/

abbrev Column := Key × ColumnDecl

def Column.part (e : Column) : Part := .column e.1 e.2

section

variable {front back : List Part} {columns : List Column}

theorem any_column (hfront : ∀ p ∈ front, (p.tag == .column) = false)
    (hback : ∀ p ∈ back, (p.tag == .column) = false) (columns : List Column) :
    (front ++ columns.map Column.part ++ back).any (fun p => p.tag == .column) =
      !columns.isEmpty := by
  have hfront : front.any (fun p => p.tag == .column) = false :=
    List.any_eq_false.2 fun p hp => by simp [hfront p hp]
  have hback : back.any (fun p => p.tag == .column) = false :=
    List.any_eq_false.2 fun p hp => by simp [hback p hp]
  rw [List.any_append, List.any_append, hfront, hback, Bool.or_false, Bool.false_or]
  cases columns <;> rfl

theorem insertBehind_column (hback : ∀ p ∈ back, (p.tag == .column) = false)
    (hcolumns : columns ≠ []) (front : List Part) (p : Part) :
    insertBehind (fun q => q.tag == .column) p (front ++ columns.map Column.part ++ back) =
      front ++ columns.map Column.part ++ p :: back := by
  rcases List.eq_nil_or_concat columns with rfl | ⟨columns, last, rfl⟩
  · exact absurd rfl hcolumns
  · have hinsert := insertBehind_append (a := p) (l := front ++ columns.map Column.part)
      (b := last.part) (p := fun q : Part => q.tag == .column) rfl hback
    simpa using hinsert

end

structure Recorded (q : Table) (c : Compiler) (s : Schema) (requests : List Request)
    (marks : List Part) (columns : List Column) : Prop where
  compiler : q.compiler = c
  schema : q.schema = s
  shape : q.draft.shape = .statement
  given : Given q.draft.nextKey (q.draft.parts.map Part.key)
  isMark : ∀ p ∈ marks, IsMark p
  isEntry : (∀ request ∈ requests, request.isAlteration = false) →
    ∀ p ∈ marks, ∃ e : Entry, e.part = p
  declared : columns.map Prod.snd = declarations s requests
  constraints : marks.filterMap Part.constraint? = keyTexts requests
  ignored : marks.filterMap Part.ignored? = requests.filterMap Request.ignored?
  autoIncrement : q.autoIncrement = requests.filterMap Request.numbered?

/-- The columns stand together, behind what was recorded ahead of the first of them. -/
structure Collected (q : Table) (c : Compiler) (s : Schema) (requests : List Request)
    (front back : List Part) (columns : List Column) : Prop
    extends Recorded q c s requests (front ++ back) columns where
  parts : q.draft.parts = front ++ columns.map Column.part ++ back
  back_eq_nil : columns = [] → back = []
  early : front.filterMap Part.constraint? = keyTexts (early s requests)

variable {c : Compiler} {s : Schema} {requests : List Request} {request : Request}
  {marks front back : List Part} {columns : List Column} {decl : ColumnDecl}

theorem filterMap_concat {α β : Type} (f : α → Option β) (l : List α) (a : α) :
    (l ++ [a]).filterMap f = l.filterMap f ++ (f a).toList := by
  rw [List.filterMap_append]
  cases h : f a <;> simp [h]

theorem declarations_concat (s : Schema) (requests : List Request) (request : Request) :
    declarations s (requests ++ [request]) =
      declarations s requests ++ (request.declared? s).toList :=
  filterMap_concat ..

theorem keyTexts_concat (requests : List Request) (request : Request) :
    keyTexts (requests ++ [request]) = keyTexts requests ++ request.constraint?.toList :=
  filterMap_concat ..

theorem early_eq_self (h : declarations s requests = []) :
    early s requests = requests := by
  rw [early, List.takeWhile_eq_self_iff]
  intro request hrequest
  rw [List.filterMap_eq_nil_iff.1 h request hrequest]
  rfl

theorem early_concat_of_eq_nil (h : declarations s requests = [])
    (hdeclared : request.declared? s = some decl) :
    early s (requests ++ [request]) = requests := by
  rw [early, List.takeWhile_append_of_pos, List.takeWhile_cons_of_neg, List.append_nil]
  · simp [hdeclared]
  · intro request hrequest
    rw [List.filterMap_eq_nil_iff.1 h request hrequest]
    rfl

theorem early_concat_of_ne_nil (h : declarations s requests ≠ [])
    (request : Request) : early s (requests ++ [request]) = early s requests := by
  rw [early, List.takeWhile_append, if_neg]
  · rfl
  · intro hlength
    have hall := (List.takeWhile_prefix fun request : Request =>
      (request.declared? s).isNone).eq_of_length hlength
    refine h (List.filterMap_eq_nil_iff.2 fun request hrequest => ?_)
    simpa using List.takeWhile_eq_self_iff.1 hall request hrequest

theorem Recorded.leave {new : List Part} (h : q.Recorded c s requests marks columns)
    (hdeclared : request.declared? s = none) (hleaves : Leaves q q' request new) :
    q'.Recorded c s (requests ++ [request]) (marks ++ new) columns where
  compiler := hleaves.compiler.trans h.compiler
  schema := hleaves.schema.trans h.schema
  shape := hleaves.shape.trans h.shape
  given := by
    rw [hleaves.parts, List.map_append, hleaves.keys, hleaves.nextKey]
    exact h.given.append_range' _
  isMark := List.forall_mem_append.2 ⟨h.isMark, hleaves.marks.isMark⟩
  isEntry halter := by
    rw [List.forall_mem_append, List.forall_mem_singleton] at halter
    exact List.forall_mem_append.2 ⟨h.isEntry halter.1, hleaves.marks.isEntry halter.2⟩
  declared := by rw [declarations_concat, hdeclared, h.declared, Option.toList_none, List.append_nil]
  constraints := by
    rw [List.filterMap_append, h.constraints, hleaves.marks.constraints, keyTexts_concat]
  ignored := by
    rw [List.filterMap_append, h.ignored, hleaves.marks.ignored, filterMap_concat]
  autoIncrement := by rw [hleaves.autoIncrement, h.autoIncrement, filterMap_concat]

theorem Request.eq_column_of_declared? (h : request.declared? s = some decl) :
    request.constraint? = none ∧ request.ignored? = none ∧ request.numbered? = none ∧
      request.isAlteration = false := by
  obtain ⟨⟨name, type, nullable, rfl⟩, -⟩ := exists_of_declared? h
  exact ⟨rfl, rfl, rfl, rfl⟩

theorem Recorded.declare (h : q.Recorded c s requests marks columns)
    (hdeclared : request.declared? s = some decl) :
    (q.declareColumn decl).Recorded c s (requests ++ [request]) marks
      (columns ++ [(q.draft.nextKey, decl)]) := by
  obtain ⟨hconstraint, hignored, hnumbered, halter⟩ := request.eq_column_of_declared? hdeclared
  exact
    { compiler := h.compiler
      schema := h.schema
      shape := h.shape
      given := by
        have hparts := insertBehind_perm (fun p => p.tag == columnAnchor q.draft.toTree)
          (Part.column q.draft.nextKey decl) q.draft.parts
        refine (h.given.append_range' 1).perm ((hparts.map Part.key).trans ?_)
        rw [List.map_append]
        exact .refl _
      isMark := h.isMark
      isEntry := fun hall => h.isEntry fun request hrequest =>
        hall request (List.mem_append_left _ hrequest)
      declared := by
        rw [List.map_append, h.declared, declarations_concat, hdeclared]
        rfl
      constraints := by
        rw [keyTexts_concat, hconstraint, h.constraints]
        exact (List.append_nil _).symm
      ignored := by
        rw [filterMap_concat, hignored, h.ignored]
        exact (List.append_nil _).symm
      autoIncrement := by
        rw [filterMap_concat, hnumbered, ← h.autoIncrement]
        exact (List.append_nil _).symm }

namespace Collected

theorem notColumn (h : q.Collected c s requests front back columns) :
    (∀ p ∈ front, (p.tag == .column) = false) ∧ ∀ p ∈ back, (p.tag == .column) = false := by
  rw [← List.forall_mem_append]
  exact fun p hp => (h.isMark p hp).ne_column

theorem leave {new : List Part} (h : q.Collected c s requests front back columns)
    (hdeclared : request.declared? s = none) (hleaves : Leaves q q' request new) :
    ∃ front' back', q'.Collected c s (requests ++ [request]) front' back' columns := by
  have hrecorded := h.toRecorded.leave hdeclared hleaves
  by_cases hcolumns : columns = []
  · -- no column yet, so everything so far stands in front of the first one
    have hback := h.back_eq_nil hcolumns
    have hnone : declarations s requests = [] := by
      rw [← h.declared, hcolumns, List.map_nil]
    subst hcolumns hback
    rw [List.append_nil] at hrecorded
    refine ⟨front ++ new, [], by rwa [List.append_nil], ?_, fun _ => rfl, ?_⟩
    · rw [hleaves.parts, h.parts]
      simp
    · rw [hrecorded.constraints, early_eq_self]
      rw [declarations_concat, hnone, hdeclared]
      rfl
  · have hsome : declarations s requests ≠ [] := by
      rwa [← h.declared, ne_eq, List.map_eq_nil_iff]
    refine ⟨front, back ++ new, by rwa [← List.append_assoc], ?_, fun hnil => absurd hnil hcolumns, ?_⟩
    · rw [hleaves.parts, h.parts, List.append_assoc]
    · rw [early_concat_of_ne_nil hsome, h.early]

theorem declare (h : q.Collected c s requests front back columns)
    (hdeclared : request.declared? s = some decl) :
    (q.declareColumn decl).Collected c s (requests ++ [request]) front back
      (columns ++ [(q.draft.nextKey, decl)]) := by
  obtain ⟨hfront, hback⟩ := h.notColumn
  have hcontains : q.draft.contains .column = !columns.isEmpty := by
    rw [Tree.contains, h.parts, any_column hfront hback]
  have hparts : (q.declareColumn decl).draft.parts =
      insertBehind (fun p => p.tag == columnAnchor q.draft.toTree) (.column q.draft.nextKey decl)
        q.draft.parts := rfl
  have hrecorded := h.toRecorded.declare hdeclared
  by_cases hcolumns : columns = []
  · -- the opening is not there yet either, so the first column goes to the end
    have hopening : ∀ p ∈ front, (p.tag == .createTable) = false :=
      fun p hp => (h.isMark p (List.mem_append_left _ hp)).ne_createTable
    have hnone : declarations s requests = [] := by
      rw [← h.declared, hcolumns, List.map_nil]
    have hback := h.back_eq_nil hcolumns
    subst hcolumns hback
    refine ⟨hrecorded, ?_, fun _ => rfl, ?_⟩
    · rw [hparts, columnAnchor, hcontains, h.parts]
      simpa [Column.part] using insertBehind_of_none hopening
    · rw [early_concat_of_eq_nil hnone hdeclared, h.early, early_eq_self hnone]
  · have hsome : declarations s requests ≠ [] := by
      rwa [← h.declared, ne_eq, List.map_eq_nil_iff]
    refine ⟨hrecorded, ?_, fun hnil => by simp at hnil, ?_⟩
    · rw [hparts, columnAnchor, hcontains, h.parts, List.isEmpty_eq_false_iff.2 hcolumns]
      have hinsert := insertBehind_column hback hcolumns front (.column q.draft.nextKey decl)
      simpa [Column.part] using hinsert
    · rw [early_concat_of_ne_nil hsome, h.early]

theorem step (h : q.Collected c s requests front back columns) (hrequest : request.apply q = .ok q') :
    ∃ front' back' columns', q'.Collected c s (requests ++ [request]) front' back' columns' := by
  rcases apply_eq_ok hrequest with ⟨decl, hdeclared, rfl⟩ | ⟨hdeclared, marks, hleaves⟩
  · exact ⟨_, _, _, h.declare (h.schema ▸ hdeclared)⟩
  · obtain ⟨front', back', h'⟩ := h.leave (h.schema ▸ hdeclared) hleaves
    exact ⟨_, _, _, h'⟩

theorem after (h : q.Collected c s requests front back columns) {more : List Request}
    (hmore : more.foldlM Request.apply q = .ok q') :
    ∃ front' back' columns', q'.Collected c s (requests ++ more) front' back' columns' :=
  foldlM_induction (I := fun requests q => ∃ front back columns,
      q.Collected c s requests front back columns) requests
    (fun ⟨_, _, _, h⟩ hrequest => h.step hrequest) ⟨_, _, _, h⟩ hmore

end Collected

theorem collected_of_requested (h : requested c s requests = .ok q) :
    ∃ front back columns, q.Collected c s requests front back columns := by
  have hstart : (Table.ofSchema c s).Collected c s [] [] [] [] := by
    refine ⟨⟨rfl, rfl, rfl, ⟨List.nodup_nil, fun _ => nofun⟩, ?_, fun _ => ?_, rfl, rfl, rfl, rfl⟩,
      rfl, fun _ => rfl, rfl⟩ <;> exact List.forall_mem_nil _
  exact hstart.after h

theorem exists_apply (h : request.IsAccepted q.schema) : ∃ q', request.apply q = .ok q' := by
  cases request with
  | collect call =>
    cases call with
    | ignore | key | foreignKey => exact ⟨_, rfl⟩
    | compositeKey members => exact ⟨_, if_neg fun hnil => h (congrArg _ hnil)⟩
  | column name change type nullable =>
    cases change with
    | declare =>
      obtain ⟨decl, hdecl⟩ := Option.isSome_iff_exists.1 h
      obtain ⟨columnType, htype, heq⟩ := Option.map_eq_some_iff.1 hdecl
      have hsupported : q.compiler.dialect.supportsChange .declare = true := by
        cases q.compiler.dialect <;> rfl
      refine ⟨q.declareColumn decl, ?_⟩
      rw [Request.apply, Table.column, if_pos hsupported]
      simp only [htype]
      exact congrArg (fun decl => Except.ok (q.declareColumn decl)) heq
    | add | alter | drop => cases h

theorem exists_requested (c : Compiler) (h : ∀ request ∈ requests, request.IsAccepted s) :
    ∃ q, requested c s requests = .ok q := by
  have hrun (q : Table) (hq : q.schema = s) : ∃ q', requests.foldlM Request.apply q = .ok q' := by
    induction requests generalizing q with
    | nil => exact ⟨q, rfl⟩
    | cons request requests ih =>
      obtain ⟨hrequest, hrest⟩ := List.forall_mem_cons.1 h
      obtain ⟨next, hnext⟩ := exists_apply (hq ▸ hrequest)
      have hschema : next.schema = s := by
        rcases apply_eq_ok hnext with ⟨decl, -, rfl⟩ | ⟨-, marks, hleaves⟩
        · exact hq
        · exact hleaves.schema.trans hq
      obtain ⟨q', hq'⟩ := ih hrest next hschema
      refine ⟨q', ?_⟩
      rw [List.foldlM_cons, hnext]
      exact hq'
  exact hrun _ rfl

end Table

end SqlComposer
