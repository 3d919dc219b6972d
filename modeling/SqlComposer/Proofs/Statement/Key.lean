import SqlComposer.Proofs.Statement.Restriction

/-!
# Instances and their keys

The key splits an instance in two: the members that its row is found by and the members that are
left. A predicate says of the first ones, in order, that each has the value that it has on the
instance.
-/
namespace SqlComposer

/-- Whether a member belongs to the key that is given, or else to the one of the schema. -/
def Entity.isKey (e : Entity) (key : Option String) (m : Member) : Bool :=
  match key with
  | some name => m.name == name
  | none => isKeyMember e.name m.name

namespace Target

def row (t : Target) (e : Entity) : List (Member × Value) :=
  e.members.zip t.values

def addressed (t : Target) (e : Entity) : List (Member × Value) :=
  (t.row e).filter fun pair => e.isKey t.key pair.1

def assigned (t : Target) (e : Entity) : List (Member × Value) :=
  (t.row e).filter fun pair => !e.isKey t.key pair.1

/-- An instance with a value for every member, which is found by at least one of them. -/
structure Fits (t : Target) (e : Entity) : Prop where
  nodup : (e.members.map Member.name).Nodup
  length_eq : t.values.length = e.members.length
  exists_key : ∃ m ∈ e.members, e.isKey t.key m = true

variable {e : Entity} {t : Target}

theorem Fits.map_fst_row (h : t.Fits e) : (t.row e).map Prod.fst = e.members :=
  List.map_fst_zip h.length_eq.ge

theorem Fits.nodup_row (h : t.Fits e) : ((t.row e).map fun pair => pair.1.name).Nodup := by
  have hnames := h.nodup
  rw [← h.map_fst_row, List.map_map] at hnames
  exact hnames

theorem Fits.map_fst_addressed (h : t.Fits e) :
    (t.addressed e).map Prod.fst = e.members.filter (e.isKey t.key) := by
  have hfilter := List.filter_map (f := Prod.fst) (p := e.isKey t.key) (l := t.row e)
  rw [h.map_fst_row] at hfilter
  exact hfilter.symm

theorem Fits.addressed_ne_nil (h : t.Fits e) : t.addressed e ≠ [] := by
  intro hnil
  rcases h.exists_key with ⟨m, hm, hkey⟩
  have hmem : m ∈ (t.addressed e).map Prod.fst := by
    rw [h.map_fst_addressed]
    exact List.mem_filter.2 ⟨hm, hkey⟩
  rw [hnil] at hmem
  cases hmem

theorem addressed_append_assigned (t : Target) (e : Entity) :
    (t.addressed e ++ t.assigned e).Perm (t.row e) :=
  List.filter_append_perm _ _

theorem Fits.assigned_eq_nil_iff (h : t.Fits e) :
    t.assigned e = [] ↔ ∀ m ∈ e.members, e.isKey t.key m = true := by
  rw [assigned, List.filter_eq_nil_iff, ← h.map_fst_row, List.forall_mem_map]
  simp only [Bool.not_eq_true', Bool.not_eq_false]

end Target

/-! ### The schema's view of an instance -/

theorem FieldDef.getElem?_ofMembers (entity : String) (n i : Nat) (members : List Member) :
    (ofMembers entity n members)[i]? = members[i]?.map (ofMember entity (n + i)) := by
  induction members generalizing n i with
  | nil => rfl
  | cons m members ih =>
    cases i with
    | zero => rfl
    | succ i =>
      rw [ofMembers, List.getElem?_cons_succ, List.getElem?_cons_succ, ih, Nat.succ_add_eq_add_succ]

namespace Schema

variable {e : Entity} {values : List Value}

theorem valueOf?_of_mem_zip {pair : FieldDef × Value}
    (h : pair ∈ (ofEntity e).fields.zip values) : pair.1.valueOf? values = some pair.2 := by
  rcases List.mem_iff_getElem?.1 h with ⟨i, hi⟩
  rw [List.getElem?_zip_eq_some] at hi
  rcases hi with ⟨hfield, hvalue⟩
  change (FieldDef.ofMembers e.name 0 e.members)[i]? = _ at hfield
  rw [FieldDef.getElem?_ofMembers, Nat.zero_add, Option.map_eq_some_iff] at hfield
  rcases hfield with ⟨m, -, hm⟩
  rw [← hm]
  exact hvalue

theorem map_zip (e : Entity) (values : List Value) :
    ((ofEntity e).fields.zip values).map (fun pair => (pair.1.member, pair.2)) =
      e.members.zip values := by
  rw [← map_member e, List.zip_map_left]
  rfl

theorem isKey_eq {f : FieldDef} (hf : f ∈ (ofEntity e).fields) :
    f.isKey = isKeyMember e.name f.memberName := by
  rcases List.mem_iff_getElem?.1 hf with ⟨i, hi⟩
  change (FieldDef.ofMembers e.name 0 e.members)[i]? = _ at hi
  rw [FieldDef.getElem?_ofMembers, Option.map_eq_some_iff] at hi
  rcases hi with ⟨m, -, rfl⟩
  rfl

theorem map_memberName_keys (e : Entity) :
    (ofEntity e).keys.map FieldDef.memberName =
      (e.members.filter (e.isKey none)).map Member.name := by
  rw [keys, List.filter_congr fun f hf => isKey_eq hf, ← map_member e, List.filter_map,
    List.map_map]
  rfl

theorem field?_of_mem (hnodup : (e.members.map Member.name).Nodup) {f : FieldDef}
    (hf : f ∈ (ofEntity e).fields) : (ofEntity e).field? f.memberName = some f := by
  rw [← map_memberName] at hnodup
  refine find?_eq_some_of_only hf (beq_self_eq_true _) fun g hg hname => ?_
  exact List.inj_on_of_nodup_map hnodup hg hf (beq_iff_eq.1 hname)

theorem field?_eq_none {member : String} (h : ∀ m ∈ e.members, m.name ≠ member) :
    (ofEntity e).field? member = none := by
  rw [← map_member e, List.forall_mem_map] at h
  exact List.find?_eq_none.2 fun f hf hname => h f hf (beq_iff_eq.1 hname)

theorem columnType_field? (hnodup : (e.members.map Member.name).Nodup) {m : Member}
    (hm : m ∈ e.members) :
    ((ofEntity e).field? m.name).map FieldDef.columnType = some m.columnType := by
  rw [← map_member e] at hm
  rcases List.mem_map.1 hm with ⟨f, hf, rfl⟩
  have hfield : (ofEntity e).field? f.member.name = some f := field?_of_mem hnodup hf
  rw [hfield]
  rfl

end Schema

/-! ### The predicate -/

namespace Key

variable {e : Entity} {t : Target}

def test (pair : Member × Value) : Expr :=
  (Expr.col pair.1.name).equals (.constant pair.2)

def conjunction (first : Member × Value) (rest : List (Member × Value)) : Expr :=
  (rest.map test).foldl Expr.conj (test first)

def refusal (e : Entity) : Option String → Fault
  | some name => .missingArgument "key" ("'" ++ name ++ "' is not a member of " ++ e.name)
  | none => .noPrimaryKey e.name

theorem comparison_of_mem {values : List Value} (hnodup : (e.members.map Member.name).Nodup)
    {pair : Member × Value} (hpair : pair ∈ e.members.zip values) :
    comparison (Schema.ofEntity e) values pair.1.name = .ok (test pair) := by
  rw [← Schema.map_zip] at hpair
  rcases List.mem_map.1 hpair with ⟨⟨f, v⟩, hmem, rfl⟩
  have hfield : (Schema.ofEntity e).field? f.memberName = some f :=
    Schema.field?_of_mem hnodup (List.of_mem_zip hmem).1
  have hvalue : f.valueOf? values = some v := Schema.valueOf?_of_mem_zip hmem
  change comparison (Schema.ofEntity e) values f.memberName = _
  rw [comparison, hfield]
  change Except.ok ((Expr.col f.memberName).equals (.constant ((f.valueOf? values).getD .null))) = _
  rw [hvalue]
  rfl

theorem mapM_comparison {values : List Value} (hnodup : (e.members.map Member.name).Nodup)
    {pairs : List (Member × Value)} (hpairs : ∀ pair ∈ pairs, pair ∈ e.members.zip values) :
    (pairs.map fun pair => pair.1.name).mapM (comparison (Schema.ofEntity e) values) =
      .ok (pairs.map test) := by
  induction pairs with
  | nil => rfl
  | cons pair pairs ih =>
    rw [List.forall_mem_cons] at hpairs
    rw [List.map_cons, List.mapM_cons, comparison_of_mem hnodup hpairs.1, ih hpairs.2]
    rfl

theorem members_eq (h : t.Fits e) :
    members (Schema.ofEntity e) t.key = (t.addressed e).map fun pair => pair.1.name := by
  have hnames : ((t.addressed e).map fun pair => pair.1.name) =
      (e.members.filter (e.isKey t.key)).map Member.name := by
    rw [← h.map_fst_addressed, List.map_map]
    rfl
  rw [hnames]
  rcases h with ⟨hnodup, -, hkey⟩
  generalize t.key = key at hkey ⊢
  cases key with
  | none => exact Schema.map_memberName_keys e
  | some name =>
    -- the names are distinct, so the given one stands there once
    rcases hkey with ⟨m, hm, hname⟩
    rw [Entity.isKey, beq_iff_eq] at hname
    subst hname
    have honce : (e.members.map Member.name).filter (· == m.name) = [m.name] := by
      rw [List.filter_beq, List.count_eq_one_of_mem hnodup (List.mem_map_of_mem hm)]
      rfl
    rw [List.filter_map] at honce
    exact honce.symm

theorem contains_members (e : Entity) (key : Option String) {m : Member} (hm : m ∈ e.members) :
    (members (Schema.ofEntity e) key).contains m.name = e.isKey key m := by
  cases key with
  | some name => rw [members, List.contains_cons, List.contains_nil, Bool.or_false, Entity.isKey]
  | none =>
    rw [members, Schema.map_memberName_keys, Bool.eq_iff_iff, List.contains_iff_mem, List.mem_map]
    constructor
    · rintro ⟨m', hm', hname⟩
      have hkey := (List.mem_filter.1 hm').2
      rw [Entity.isKey] at hkey ⊢
      rw [← hname]
      exact hkey
    · intro hkey
      exact ⟨m, List.mem_filter.2 ⟨hm, hkey⟩, rfl⟩

theorem predicate_of_fits (h : t.Fits e) : ∃ first rest, t.addressed e = first :: rest ∧
    predicate (Schema.ofEntity e) t.values t.key =
      .ok (conjunction first rest) := by
  rcases List.exists_cons_of_ne_nil h.addressed_ne_nil with ⟨first, rest, haddressed⟩
  refine ⟨first, rest, haddressed, ?_⟩
  have hmem : ∀ pair ∈ t.addressed e, pair ∈ e.members.zip t.values :=
    fun _ hpair => (List.mem_filter.1 hpair).1
  rw [predicate, members_eq h, mapM_comparison h.nodup hmem, haddressed]
  rfl

theorem predicate_of_unkeyed {key : Option String} (values : List Value)
    (h : ∀ m ∈ e.members, e.isKey key m = false) :
    predicate (Schema.ofEntity e) values key = .error (refusal e key) := by
  cases key with
  | some name =>
    have hnone : (Schema.ofEntity e).field? name = none :=
      Schema.field?_eq_none fun m hm => beq_eq_false_iff_ne.1 (h m hm)
    rw [predicate, members, List.mapM_cons, comparison, hnone]
    rfl
  | none =>
    have hnone : members (Schema.ofEntity e) none = [] := by
      rw [members, Schema.map_memberName_keys,
        List.filter_eq_nil_iff.2 fun m hm => Bool.eq_false_iff.1 (h m hm)]
      rfl
    rw [predicate, hnone]
    rfl

/-! ### What the predicate says -/

/-- What is said of a member: its column is `NULL`, or it equals the value. -/
def said (table : String) (pair : Member × Value) : Operand :=
  let column : Operand := .column { field := pair.1.name, entity := some table }
  match pair.2 with
  | .null => .nullTest true column
  | v => .binary .equal column (.value v)

theorem ofExpr_test (table : String) (pair : Member × Value) :
    Operand.ofExpr (.ofTable table) (test pair) = said table pair := by
  rcases pair with ⟨m, v⟩
  cases v <;> rfl

theorem ofExpr_foldl_conj (scope : Scope) (first : Expr) (rest : List Expr) :
    Operand.ofExpr scope (rest.foldl Expr.conj first) =
      (rest.map (Operand.ofExpr scope)).foldl (.binary .and) (.ofExpr scope first) := by
  induction rest generalizing first with
  | nil => rfl
  | cons p rest ih => exact ih (first.conj p)

theorem reads_predicate (table : String) (first : Member × Value) (rest : List (Member × Value))
    (key : Key) (t : Operand) :
    Reads (Part.ofAtoms key ((Scope.ofTable table).atoms (conjunction first rest)).value) t ↔
      t = (rest.map (said table)).foldl (.binary .and) (said table first) := by
  have hsaid : (rest.map test).map (Operand.ofExpr (.ofTable table)) = rest.map (said table) := by
    rw [List.map_map]
    exact List.map_congr_left fun pair _ => ofExpr_test table pair
  rw [reads_ofAtoms_iff, conjunction, ofExpr_foldl_conj, hsaid, ofExpr_test]

end Key

end SqlComposer
