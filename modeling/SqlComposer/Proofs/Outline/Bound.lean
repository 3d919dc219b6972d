import SqlComposer.Proofs.Outline.Query
import SqlComposer.Proofs.Outline.Strings

/-!
# Strings bound in an outline

Every string of an expression is among its atoms: only numbers are folded, and a null test leaves
out nothing but the constant `NULL`. Each operation on an outline binds the strings that it brings,
and loses none.
-/
namespace SqlComposer

def Value.string? : Value → Option String
  | .string s => some s
  | _ => none

def Expr.strings : Expr → List String
  | .member .. => []
  | .constant v => v.string?.toList
  | .deferred d => d.result.string?.toList
  | .computed _ d => d.result.string?.toList
  | .binary _ left right => left.strings ++ right.strings
  | .convert inner => inner.strings

def Atom.string? (a : Atom) : Option String :=
  a.held?.bind Value.string?

def rowStrings (l : List Atom) : List String :=
  l.filterMap Atom.string?

/-! ## Expressions -/

theorem Value.string?_of_float? {v : Value} (h : v.float?.isSome) : v.string? = none := by
  cases v with
  | string => cases h
  | _ => rfl

theorem BinaryOp.float?_of_arithmetic? {op : BinaryOp} {a b v : Value}
    (h : op.arithmetic? a b = some v) : a.float?.isSome ∧ b.float?.isSome := by
  unfold arithmetic? at h
  split at h
  · exact ⟨rfl, rfl⟩
  · obtain ⟨x, hx, h⟩ := Option.bind_eq_some_iff.1 h
    obtain ⟨y, hy, h⟩ := Option.bind_eq_some_iff.1 h
    exact ⟨Option.isSome_of_mem hx, Option.isSome_of_mem hy⟩

theorem BinaryOp.isArithmetic_of_result? {op : BinaryOp} {a b v : Value}
    (h : op.result? a b = some v) (hv : v.float?.isSome) : op.isArithmetic = true := by
  have hbool {x : Bool} (h : some (Value.bool x) = some v) : False := by
    cases h
    cases hv
  have hlogical (h : op.logical? a b = some v) : False := by
    unfold logical? at h
    split at h
    · split at h
      · exact hbool h
      · exact hbool h
      · cases h
    · cases h
  cases op with
  | add | subtract | multiply | divide => rfl
  | equal | notEqual => exact (hbool h).elim
  | and | or => exact (hlogical h).elim
  | greater | greaterOrEqual | less | lessOrEqual => cases h

namespace Expr

variable {e : Expr}

theorem strings_of_number {v : Value} (h : e.evaluate.value = some v) (hv : v.float?.isSome) :
    e.strings = [] := by
  induction e generalizing v with
  | member => rfl
  | constant | deferred | computed =>
    cases h
    exact congrArg Option.toList (Value.string?_of_float? hv)
  | convert inner ih => exact ih h hv
  | binary op left right ihl ihr =>
    obtain ⟨a, b, ha, hb, h⟩ := exists_of_evaluate_binary h
    rw [BinaryOp.result?_of_isArithmetic (BinaryOp.isArithmetic_of_result? h hv)] at h
    obtain ⟨hleft, hright⟩ := BinaryOp.float?_of_arithmetic? h
    rw [strings, ihl ha hleft, ihr hb hright, List.append_nil]

theorem strings_of_isNullConstant (h : e.isNullConstant = true) : e.strings = [] := by
  cases e with
  | constant v => cases v <;> first | rfl | cases h
  | _ => cases h

end Expr

@[simp] theorem rowStrings_text (s : String) (l : List Atom) :
    rowStrings (.text s :: l) = rowStrings l := rfl

@[simp] theorem rowStrings_append (l m : List Atom) :
    rowStrings (l ++ m) = rowStrings l ++ rowStrings m :=
  List.filterMap_append

theorem rowStrings_value (v : Value) : rowStrings [.value v] = v.string?.toList := by
  cases v <;> rfl

theorem rowStrings_deferred (d : Deferred) : rowStrings [.deferred d] = d.result.string?.toList :=
  rowStrings_value d.result

namespace Scope

variable (scope : Scope)

theorem field?_strings {scope : Scope} {e : Expr} {r : ColumnRef} (h : scope.field? e = some r) :
    e.strings = [] := by
  induction e with
  | member => rfl
  | convert inner ih => exact ih h
  | constant | deferred | binary | computed => cases h

theorem rowStrings_verbatim (e : Expr) : rowStrings (scope.verbatim e).value = e.strings := by
  induction e with
  | member => rfl
  | constant | computed => exact rowStrings_value _
  | deferred d => exact rowStrings_deferred d
  | convert inner ih => exact ih
  | binary op left right ihl ihr =>
    simp only [verbatim, Reading.value_bind, Reading.value_pure, List.cons_append,
      rowStrings_text, rowStrings_append, ihl, ihr]
    exact List.append_nil _

theorem rowStrings_atoms (e : Expr) : rowStrings (scope.atoms e).value = e.strings := by
  induction e with
  | member => rfl
  | constant | computed => exact rowStrings_value _
  | deferred d => exact rowStrings_deferred d
  | convert inner ih => exact ih
  | binary op left right ihl ihr =>
    simp only [atoms, BinaryOp.keyword?_eq]
    by_cases hop : op.isArithmetic = true
    · simp only [hop, if_true, literal_value]
      cases h : (Expr.binary op left right).evaluate.value with
      | none => exact scope.rowStrings_verbatim (.binary op left right)
      | some v =>
        have hnumber : v.float?.isSome := by
          obtain ⟨n, rfl⟩ | ⟨x, rfl⟩ := Expr.evaluate_arithmetic_eq_some hop h <;> rfl
        rw [Expr.strings_of_number h hnumber, rowStrings_value, Value.string?_of_float? hnumber]
        rfl
    · simp only [hop, Bool.false_eq_true, if_false, nullTest?_eq]
      by_cases hright : (op = .equal ∨ op = .notEqual) ∧ right.isNullConstant
      · simp only [if_pos hright, Reading.value_bind, Reading.value_pure, List.cons_append,
          rowStrings_text, rowStrings_append, ihl, Expr.strings,
          Expr.strings_of_isNullConstant hright.2]
        rfl
      by_cases hleft : (op = .equal ∨ op = .notEqual) ∧ left.isNullConstant
      · simp only [if_neg hright, if_pos hleft, Reading.value_bind, Reading.value_pure,
          List.cons_append, rowStrings_text, rowStrings_append, ihr, Expr.strings,
          Expr.strings_of_isNullConstant hleft.2]
        exact List.append_nil _
      · simp only [if_neg hright, if_neg hleft, Reading.value_bind, Reading.value_pure,
          List.cons_append, rowStrings_text, rowStrings_append, ihl, ihr, Expr.strings]
        exact List.append_nil _

end Scope

/-! ## Outlines -/

def Entry.string? (e : Entry) : Option String :=
  e.held?.bind Value.string?

def Block.strings (b : Block) : List String :=
  b.values.filterMap Value.string?

def Outline.strings (s : Outline) : List String :=
  s.blocks.flatMap Block.strings

theorem Outline.filterMap_values (s : Outline) :
    s.values.filterMap Value.string? = s.strings :=
  List.filterMap_flatMap

theorem filterMap_held? (l : List Atom) :
    (l.filterMap Atom.held?).filterMap Value.string? = rowStrings l :=
  List.filterMap_filterMap

namespace Block

variable {b : Block} {a : Addition} {e : Entry}

theorem strings_clause (c : Clause) :
    (clause c).strings = rowStrings c.atoms ++ c.additions.flatMap fun a => rowStrings a.atoms := by
  rw [strings, values, List.filterMap_append, filterMap_held?, List.filterMap_flatMap]
  simp only [Addition.values, filterMap_held?]

theorem strings_listing (l : Listing) :
    (listing l).strings = l.entries.filterMap Entry.string? :=
  List.filterMap_filterMap

theorem strings_nest (hb : b.isClause = true) :
    (b.nest a).strings = b.strings ++ rowStrings a.atoms := by
  cases b with
  | text | listing => cases hb
  | clause c =>
    rw [nest, strings_clause, strings_clause, Clause.nest, List.flatMap_append,
      List.flatMap_singleton, List.append_assoc]

theorem strings_enter (hb : b.isListing = true) (hopen : b.isClosed = false) :
    (b.enter e).strings = b.strings ++ e.string?.toList := by
  cases b with
  | text | clause => cases hb
  | listing l =>
    rw [enter, strings_listing, strings_listing, Listing.entries_enter hopen, List.filterMap_append]
    cases h : e.string? <;> simp [h]

theorem strings_enter_column (b : Block) (key : Key) (r : ColumnRef) :
    (b.enter (.column key r)).strings = b.strings := by
  cases b with
  | text | clause => rfl
  | listing l =>
    rw [enter, strings_listing, strings_listing, Listing.enter]
    cases l.isClosed with
    | true => rfl
    | false =>
      rw [if_neg Bool.false_ne_true, List.filterMap_append]
      exact List.append_nil _

theorem Settled.nest (hb : b.Settled) : (b.nest a).Settled := by
  cases b <;> exact hb

theorem Settled.enter (hb : b.Settled) (he : e.Settled) : (b.enter e).Settled := by
  cases b with
  | text | clause => exact hb
  | listing l =>
    intro e' he'
    rw [Listing.enter] at he'
    split_ifs at he' with hclosed
    · exact hb e' he'
    · obtain he' | he' := List.mem_append.1 he'
      · exact hb e' he'
      · rwa [List.mem_singleton.1 he']

theorem isClause_of_tag {tag : Tag} (htag : b.tag = tag)
    (hclause : tag.frame? = none ∧ tag ≠ Verb.insert.tag ∧ tag ≠ Verb.update.tag) :
    b.isClause = true := by
  obtain ⟨hframe, hinsert, hupdate⟩ := hclause
  refine isClause_of_frame? (htag ▸ hframe) fun v => ?_
  cases v with
  | insert => exact htag ▸ hinsert
  | update => exact htag ▸ hupdate

theorem isClause_of_startsOrder (h : b.tag.startsOrder = true) : b.isClause = true := by
  obtain htag | htag := Outline.startsOrder_iff.1 h <;> exact isClause_of_tag htag (by decide)

theorem settled_clause {c : Clause} (hfrom : c.tag ≠ .fromClause) : (clause c).Settled :=
  fun htag => absurd htag hfrom

theorem strings_close (b : Block) : b.close.strings = b.strings := by
  cases b <;> rfl

theorem Settled.close (hb : b.Settled) : b.close.Settled := by
  cases b <;> exact hb

end Block

namespace Listing

theorem filterMap_string?_columns (key : Key) (fields : List ColumnRef) :
    (Entry.columns key fields).filterMap Entry.string? = [] := by
  induction fields generalizing key with
  | nil => rfl
  | cons r fields ih => exact ih (key + 1)

theorem filterMap_string?_supplied (l : Listing) (key : Key) (fields : List ColumnRef) :
    (l.supplied key fields).entries.filterMap Entry.string? =
      l.entries.filterMap Entry.string? := by
  rw [supplied, List.filterMap_append, filterMap_string?_columns, List.append_nil,
    List.filterMap_filter]
  refine List.filterMap_congr fun e _ => ?_
  cases e with
  | column => exact ite_self _
  | parameter => rfl

end Listing

/-- The outline binds these strings, each as often as it is listed. -/
structure Outline.Binds (s : Outline) (bound : List String) : Prop where
  settled : s.Each Block.Settled
  perm : s.strings.Perm bound

namespace Outline.Binds

variable {s : Outline} {bound : List String} {atoms : List Atom} (h : s.Binds bound)

include h

theorem insert {b : Block} (hb : b.Settled) (before : Tag → Bool) (n : Nat) :
    (s.insert b before n).Binds (bound ++ b.strings) where
  settled := Each.insert h.settled hb before n
  perm := by
    have hblocks := (insertAhead_perm (fun b => before b.tag) b s.blocks).flatMap_right
      Block.strings
    rw [List.flatMap_append, List.flatMap_singleton] at hblocks
    exact hblocks.trans (h.perm.append_right _)

theorem add {b : Block} (hb : b.Settled) (n : Nat) : (s.add b n).Binds (bound ++ b.strings) where
  settled := Each.add h.settled hb n
  perm := by
    rw [strings, Outline.add, List.flatMap_append, List.flatMap_singleton]
    exact h.perm.append_right _

theorem insert_clause {c : Clause} (hfrom : c.tag ≠ .fromClause) (hadditions : c.additions = [])
    (before : Tag → Bool) (n : Nat) :
    (s.insert (.clause c) before n).Binds (bound ++ rowStrings c.atoms) := by
  have hinsert := h.insert (Block.settled_clause hfrom) before n
  rwa [Block.strings_clause, hadditions, List.flatMap_nil, List.append_nil] at hinsert

theorem add_clause {c : Clause} (hfrom : c.tag ≠ .fromClause) (hadditions : c.additions = [])
    (n : Nat) : (s.add (.clause c) n).Binds (bound ++ rowStrings c.atoms) := by
  have hadd := h.add (Block.settled_clause hfrom) n
  rwa [Block.strings_clause, hadditions, List.flatMap_nil, List.append_nil] at hadd

theorem nest {anchor : Block → Bool}
    (hanchor : ∀ b ∈ s.blocks, anchor b = true → b.isClause = true) (joint : Joint)
    (atoms : List Atom) : (s.nest anchor joint atoms).Binds (bound ++ rowStrings atoms) := by
  have hfrom : joint.tag ≠ .fromClause := by cases joint <;> decide
  rw [Outline.nest]
  split_ifs with hany
  · constructor
    · intro b hb
      obtain hb | ⟨b', hb', rfl⟩ := eq_or_of_mem_modifyLast hb
      · exact h.settled b hb
      · exact (h.settled b' hb').nest
    · exact (flatMap_modifyLast_perm hany fun b hb hanchored =>
        .of_eq (Block.strings_nest (hanchor b hb hanchored))).trans (h.perm.append_right _)
  · exact h.add_clause hfrom rfl _

theorem restrict (before : Tag → Bool) (atoms : List Atom) :
    (s.restrict before atoms).Binds (bound ++ rowStrings atoms) := by
  rw [Outline.restrict]
  split_ifs
  · exact h.nest (fun b _ htag => Block.isClause_of_tag (beq_iff_eq.1 htag) (by decide)) _ _
  · exact h.insert_clause (show Tag.whereClause ≠ .fromClause by decide) rfl _ _

theorem order {first : Tag} (hfirst : first.frame? = none) (hfrom : first ≠ .fromClause)
    (next : Joint) (atoms : List Atom) :
    (s.order first hfirst next atoms).Binds (bound ++ rowStrings atoms) := by
  rw [Outline.order]
  split_ifs
  · exact h.nest (fun b _ htag => Block.isClause_of_startsOrder htag) _ _
  · exact h.add_clause hfrom rfl _

theorem setAlias (entity : String) (tableAlias : Option String) :
    (s.setAlias entity tableAlias).Binds bound where
  settled := Each.setAlias h.settled entity tableAlias
  perm := by
    rw [strings, setAlias_blocks]
    exact h.perm

theorem join {kind : Tag} (hkind : kind.frame? = none) (hfrom : kind ≠ .fromClause)
    (entity : String) (tableAlias : Option String) (atoms : List Atom) :
    (s.join kind hkind entity tableAlias atoms).Binds (bound ++ rowStrings atoms) :=
  (h.setAlias entity tableAlias).insert_clause hfrom rfl _ _

theorem openGrouping : s.openGrouping.Binds bound := by
  rw [Outline.openGrouping]
  split_ifs
  · exact h
  · have hinsert := h.insert (b := .listing { key := s.nextKey, tag := .groupBy })
      (List.forall_mem_nil _) Tag.isOrder 1
    rwa [Block.strings_listing, List.filterMap_nil, List.append_nil] at hinsert

theorem enter_column (tag : Tag) (r : ColumnRef) :
    (s.enter tag fun key => .column key r).Binds bound where
  settled := Each.enter h.settled (fun _ hb => hb.enter (e := .column _ r) trivial) tag
  perm := by
    rw [strings, Outline.enter, List.flatMap_def,
      map_modifyLast_of_eq fun b => b.strings_enter_column _ _, ← List.flatMap_def]
    exact h.perm

theorem enter {tag : Tag} (htag : tag.frame?.isSome) (hlist : s.Has fun b => b.tag = tag)
    (hopen : s.Each fun b => b.isClosed = false) {e : Key → Entry} {bound' : List String}
    (he : ∀ key, (e key).Settled ∧ (e key).string?.toList = bound') :
    (s.enter tag e).Binds (bound ++ bound') where
  settled := Each.enter h.settled (fun key hb => hb.enter (he key).1) tag
  perm := by
    obtain ⟨b, hb, hbtag⟩ := hlist
    have hany : (s.blocks.any fun b => b.tag == tag) = true :=
      List.any_eq_true.2 ⟨b, hb, beq_iff_eq.2 hbtag⟩
    refine (flatMap_modifyLast_perm hany fun b hb hbtag => ?_).trans (h.perm.append_right _)
    have hlisting := Block.isListing_of_frame? (b := b) (by rwa [beq_iff_eq.1 hbtag])
    rw [Block.strings_enter hlisting (hopen b hb), (he _).2]

theorem supply (fields : List ColumnRef) : (s.supply fields).Binds bound where
  settled := by
    refine Each.supply h.settled fun {l} key hl e he => ?_
    obtain he | he := List.mem_append.1 he
    · exact hl e (List.mem_filter.1 he).1
    · obtain ⟨_, _, -, rfl⟩ := Entry.eq_column_of_mem he
      exact trivial
  perm := by
    rw [Outline.supply]
    split
    · rename_i l rest hblocks
      have hperm := h.perm
      split_ifs
      · exact hperm
      · rw [strings, hblocks, List.flatMap_cons, Block.strings_listing] at hperm
        rwa [strings, List.flatMap_cons, Block.strings_listing,
          Listing.filterMap_string?_supplied]
    · exact h.perm

theorem closeSelect : s.closeSelect.Binds bound where
  settled := Each.closeSelect h.settled fun hb _ => hb.close
  perm := by
    have hclose (b : Block) : Block.strings (if b.tag == .select then b.close else b) =
        b.strings := by
      split_ifs
      · exact b.strings_close
      · rfl
    rw [strings, Outline.closeSelect, List.flatMap_map]
    simp only [hclose]
    exact h.perm

end Outline.Binds

end SqlComposer
