import SqlComposer.Proofs.Outline.Bound
import SqlComposer.Proofs.Select.Clean
import SqlComposer.Proofs.Statement.Run

/-!
# Insertions, updates and deletions as outlines

What these statements add goes to the end of one of their lists or into their restriction. Names
and values without apostrophes make outlines that have none outside of their literals.
-/
namespace SqlComposer

/-- A draft drawn as an outline that has the lists, and no list that is closed. -/
structure Drawn (d : Draft) (s : Outline) (lists : List Tag) : Prop where
  draft_eq : d = s.draft
  keyed : s.Keyed
  list : ∀ tag ∈ lists, tag.frame?.isSome ∧ s.Has fun b => b.tag = tag
  isOpen : s.Each fun b => b.isClosed = false

namespace Drawn

variable {d : Draft} {s : Outline} {lists : List Tag} {tag : Tag}

theorem enter (h : Drawn d s lists) (htag : tag ∈ lists) {e : Key → Entry}
    (he : ∀ k, (e k).key = k) :
    Drawn (d.spend 1 (d.addToLast (e d.nextKey).part tag)) (s.enter tag e) lists where
  draft_eq := by
    obtain ⟨hframe, b, hb, hbtag⟩ := h.list tag htag
    have hany : (s.blocks.any fun b => b.tag == tag) = true :=
      List.any_eq_true.2 ⟨b, hb, beq_iff_eq.2 hbtag⟩
    rw [h.draft_eq]
    exact Outline.draft_enter h.keyed hframe hany e
  keyed := h.keyed.enter tag he
  list t ht := ⟨(h.list t ht).1, (h.list t ht).2.enter (fun _ hb => Block.enter_tag.trans hb) _ _⟩
  isOpen := h.isOpen.enter (fun _ hb => Block.enter_isClosed.trans hb) tag

theorem restrict (h : Drawn d s lists) (scope : Scope) (predicate : Expr) :
    Drawn (d.addRestriction scope predicate fun _ => false).value
      (s.restrict (fun _ => false) (scope.atoms predicate).value) lists where
  draft_eq := by
    rw [h.draft_eq]
    exact Outline.draft_restrict h.keyed scope predicate fun _ => false
  keyed := h.keyed.restrict _ _
  list t ht := ⟨(h.list t ht).1, (h.list t ht).2.restrict (fun _ hb => Block.nest_tag.trans hb) _ _⟩
  isOpen := h.isOpen.restrict (fun _ hb => Block.nest_isClosed.trans hb) (fun _ _ _ _ => rfl) _

end Drawn

namespace Key

variable {e : Entity} {values : List Value} {predicate : Expr}

theorem clean_comparison (he : e.Clean) (hvalues : ∀ v ∈ values, v.Clean) {member : String}
    (h : comparison (Schema.ofEntity e) values member = .ok predicate) : predicate.Clean := by
  rw [comparison] at h
  cases hf : (Schema.ofEntity e).field? member with
  | none =>
    rw [hf] at h
    cases h
  | some f =>
    rw [hf] at h
    cases h
    have hmember : f.memberName = member := by simpa using List.find?_some hf
    refine ⟨⟨nofun, nofun, hmember ▸ he.field (List.mem_of_find?_eq_some hf)⟩, ?_⟩
    cases hv : f.valueOf? values with
    | none => exact trivial
    | some v => exact hvalues v (List.mem_of_getElem? hv)

theorem clean_conj {first : Expr} {rest : List Expr} (hfirst : first.Clean)
    (hrest : ∀ p ∈ rest, p.Clean) : (rest.foldl Expr.conj first).Clean := by
  induction rest generalizing first with
  | nil => exact hfirst
  | cons p rest ih =>
    exact ih ⟨hfirst, hrest p List.mem_cons_self⟩ fun q hq => hrest q (List.mem_cons_of_mem _ hq)

theorem clean_comparisons (he : e.Clean) (hvalues : ∀ v ∈ values, v.Clean)
    {members : List String} {comparisons : List Expr}
    (h : members.mapM (comparison (Schema.ofEntity e) values) = .ok comparisons) :
    ∀ p ∈ comparisons, p.Clean := by
  induction members generalizing comparisons with
  | nil =>
    cases h
    nofun
  | cons member members ih =>
    rw [List.mapM_cons] at h
    cases hfirst : comparison (Schema.ofEntity e) values member with
    | error =>
      rw [hfirst] at h
      cases h
    | ok first =>
      cases hrest : members.mapM (comparison (Schema.ofEntity e) values) with
      | error =>
        rw [hfirst, hrest] at h
        cases h
      | ok rest =>
        rw [hfirst, hrest] at h
        cases h
        intro p hp
        obtain rfl | hp := List.mem_cons.1 hp
        · exact clean_comparison he hvalues hfirst
        · exact ih hrest p hp

theorem clean_predicate (he : e.Clean) (hvalues : ∀ v ∈ values, v.Clean) {key : Option String}
    (h : Key.predicate (Schema.ofEntity e) values key = .ok predicate) : predicate.Clean := by
  rw [Key.predicate] at h
  cases hall : (members (Schema.ofEntity e) key).mapM (comparison (Schema.ofEntity e) values) with
  | error =>
    rw [hall] at h
    cases h
  | ok comparisons =>
    have hclean := clean_comparisons he hvalues hall
    rw [hall] at h
    cases comparisons with
    | nil => cases h
    | cons first rest =>
      cases h
      exact clean_conj (hclean first List.mem_cons_self) fun p hp =>
        hclean p (List.mem_cons_of_mem _ hp)

end Key

namespace Update

def entry (q : Update) (member : String) (v : Value) (key : Key) : Entry :=
  .parameter key
    { source := .value v
      name := some member
      declared := (q.schema.field? member).map FieldDef.columnType }

def Call.Clean : Call → Prop
  | .set member v => Text.Clean member ∧ v.Clean
  | .filter predicate => predicate.Clean

def Call.layOut (q : Update) (s : Outline) : Call → Outline
  | .set member v => s.enter .assignments (q.entry member v)
  | .filter predicate =>
    s.restrict (fun _ => false) (Scope.atoms { entity := some q.schema.name } predicate).value

def outline (e : Entity) : Outline where
  blocks := [.text 1 .update ("UPDATE " ++ e.name), .listing { key := 2, tag := .assignments }]
  nextKey := 3

theorem drawn_ofEntity (c : Compiler) (e : Entity) :
    Drawn (ofEntity c e).draft (outline e) [.assignments] where
  draft_eq := rfl
  keyed := by
    constructor <;> simp [outline, Outline.keys, Block.keys_text, Block.keys_listing]
  list tag htag := by
    rw [List.mem_singleton.1 htag]
    exact ⟨rfl, _, List.mem_cons_of_mem _ List.mem_cons_self, rfl⟩
  isOpen b hb := by
    obtain rfl | rfl := List.mem_pair.1 hb <;> rfl

theorem clean_outline {e : Entity} (he : e.Clean) : (outline e).Clean where
  blocks b hb := by
    obtain rfl | rfl := List.mem_pair.1 hb
    · exact Text.Clean.append (by decide) he.name
    · exact fun e he => nomatch he
  aliases := by simp [outline]

theorem drawn_apply {q : Update} {s : Outline} (h : Drawn q.draft s [.assignments]) (call : Call) :
    Drawn (call.apply q).value.draft (call.layOut q s) [.assignments] := by
  cases call with
  | set member v =>
    exact h.enter (e := q.entry member v) List.mem_cons_self fun _ => rfl
  | filter predicate => exact h.restrict _ predicate

theorem clean_layOut {q : Update} {s : Outline} (hs : s.Clean) (hname : Text.Clean q.schema.name)
    {call : Call} (hcall : call.Clean) : (call.layOut q s).Clean := by
  cases call with
  | set member v =>
    have hentry (key : Key) : (q.entry member v key).Clean :=
      ⟨fun _ h => Option.some.inj h ▸ hcall.1, v, rfl, hcall.2⟩
    exact hs.enter hentry _
  | filter predicate =>
    have hscope : ({ entity := some q.schema.name } : Scope).Clean :=
      ⟨fun _ h => Option.some.inj h ▸ hname, nofun⟩
    exact hs.restrict (hscope.row hcall) _

def layOutAll (q : Update) (s : Outline) : List Call → Outline
  | [] => s
  | call :: calls => layOutAll (call.apply q).value (call.layOut q s) calls

theorem drawn_run {q : Update} {s : Outline} (h : Drawn q.draft s [.assignments])
    (calls : List Call) : Drawn (q.run calls).value.draft (q.layOutAll s calls) [.assignments] := by
  induction calls generalizing q s with
  | nil => exact h
  | cons call calls ih => exact ih (drawn_apply h call)

theorem schema_apply (q : Update) (call : Call) : (call.apply q).value.schema = q.schema := by
  cases call <;> rfl

theorem clean_layOutAll {q : Update} {s : Outline} (hs : s.Clean)
    (hname : Text.Clean q.schema.name) {calls : List Call} (hcalls : ∀ call ∈ calls, call.Clean) :
    (q.layOutAll s calls).Clean := by
  induction calls generalizing q s with
  | nil => exact hs
  | cons call calls ih =>
    exact ih (clean_layOut hs hname (hcalls call List.mem_cons_self))
      (q.schema_apply call ▸ hname) fun call' hmem => hcalls call' (List.mem_cons_of_mem _ hmem)

def Call.strings : Call → List String
  | .set _ v => v.string?.toList
  | .filter predicate => predicate.strings

theorem binds_outline (e : Entity) : (outline e).Binds [] where
  settled b hb := by
    obtain rfl | rfl := List.mem_pair.1 hb
    · exact trivial
    · exact fun e he => nomatch he
  perm := .refl []

theorem binds_layOutAll {q : Update} {s : Outline} {bound : List String}
    (h : Drawn q.draft s [.assignments]) (hs : s.Binds bound) (calls : List Call) :
    (q.layOutAll s calls).Binds (bound ++ calls.flatMap Call.strings) := by
  induction calls generalizing q s bound with
  | nil => rwa [List.flatMap_nil, List.append_nil]
  | cons call calls ih =>
    rw [List.flatMap_cons, ← List.append_assoc]
    refine ih (drawn_apply h call) ?_
    cases call with
    | set member v =>
      obtain ⟨htag, hlist⟩ := h.list _ List.mem_cons_self
      exact hs.enter htag hlist h.isOpen fun _ => ⟨⟨v, rfl⟩, rfl⟩
    | filter predicate =>
      rw [Call.strings, ← Scope.rowStrings_atoms]
      exact hs.restrict _ _

theorem clean_assignments {e : Entity} (he : e.Clean) {t : Target}
    (ht : ∀ v ∈ t.values, v.Clean) {predicate : Expr} (hpredicate : predicate.Clean) :
    ∀ call ∈ assignments (Schema.ofEntity e) t predicate, call.Clean := by
  intro call hcall
  obtain hcall | hcall := List.mem_append.1 hcall
  · obtain ⟨pair, hpair, rfl⟩ := List.mem_map.1 hcall
    have hmem := List.of_mem_zip (List.mem_filter.1 hpair).1
    exact ⟨he.field hmem.1, ht _ hmem.2⟩
  · rw [List.mem_singleton.1 hcall]
    exact hpredicate

theorem run_same (q : Update) (calls : List Call) :
    (q.run calls).value.compiler = q.compiler ∧ (q.run calls).value.schema = q.schema := by
  induction calls generalizing q with
  | nil => exact ⟨rfl, rfl⟩
  | cons call calls ih =>
    have hcompiler : (call.apply q).value.compiler = q.compiler := by cases call <;> rfl
    obtain ⟨hcompiler', hschema'⟩ := ih (call.apply q).value
    exact ⟨hcompiler'.trans hcompiler, hschema'.trans (q.schema_apply call)⟩

theorem clean_given {e : Entity} (he : e.Clean) {target : Option Target}
    (htarget : ∀ t ∈ target, ∀ v ∈ t.values, v.Clean) {first : List Call}
    (hfirst : given e target = some first) : ∀ call ∈ first, call.Clean := by
  cases target with
  | none =>
    cases hfirst
    exact List.forall_mem_nil _
  | some t =>
    obtain ⟨predicate, hpredicate, rfl⟩ := Option.map_eq_some_iff.1 hfirst
    exact clean_assignments he (htarget t rfl)
      (Key.clean_predicate he (htarget t rfl) (toOption_eq_some.1 hpredicate))

end Update

namespace Delete

def outline (e : Entity) : Outline where
  blocks := [.listing { key := 1, tag := .delete },
    .clause
      { key := 2, tag := .fromClause, entity := some e.name,
        opensNoList := Tag.frame?_fromClause }]
  nextKey := 3

theorem drawn_ofEntity (c : Compiler) (e : Entity) :
    Drawn (ofEntity c e).draft (outline e) [] where
  draft_eq := rfl
  keyed := by
    constructor <;> simp [outline, Outline.keys, Block.keys_clause, Block.keys_listing]
  list := nofun
  isOpen b hb := by
    obtain rfl | rfl := List.mem_pair.1 hb <;> rfl

theorem clean_outline {e : Entity} (he : e.Clean) : (outline e).Clean where
  blocks b hb := by
    obtain rfl | rfl := List.mem_pair.1 hb
    · exact fun e he => nomatch he
    · have hnone : ∀ a ∈ (none : Option String), Text.Clean a := nofun
      exact Block.clean_source 2 rfl he.name hnone (.inl rfl) fun _ => rfl
  aliases := by simp [outline]

def layOutAll (q : Delete) (s : Outline) : List Expr → Outline
  | [] => s
  | p :: predicates =>
    layOutAll (q.filter p).value
      (s.restrict (fun _ => false) (Scope.atoms { entity := some q.schema.name } p).value) predicates

theorem drawn_run {q : Delete} {s : Outline} (h : Drawn q.draft s []) (predicates : List Expr) :
    Drawn (q.run predicates).value.draft (q.layOutAll s predicates) [] := by
  induction predicates generalizing q s with
  | nil => exact h
  | cons p predicates ih => exact ih (q := (q.filter p).value) (h.restrict _ p)

theorem clean_layOutAll {q : Delete} {s : Outline} (hs : s.Clean)
    (hname : Text.Clean q.schema.name) {predicates : List Expr}
    (hpredicates : ∀ p ∈ predicates, p.Clean) : (q.layOutAll s predicates).Clean := by
  induction predicates generalizing q s with
  | nil => exact hs
  | cons p predicates ih =>
    have hscope : ({ entity := some q.schema.name } : Scope).Clean :=
      ⟨fun _ h => Option.some.inj h ▸ hname, nofun⟩
    exact ih (q := (q.filter p).value)
      (hs.restrict (hscope.row (hpredicates p List.mem_cons_self)) _) hname
      fun p' hmem => hpredicates p' (List.mem_cons_of_mem _ hmem)

theorem binds_outline (e : Entity) : (outline e).Binds [] where
  settled b hb := by
    obtain rfl | rfl := List.mem_pair.1 hb
    · exact fun e he => nomatch he
    · exact fun _ => rfl
  perm := .refl []

theorem binds_layOutAll {q : Delete} {s : Outline} {bound : List String} (hs : s.Binds bound)
    (predicates : List Expr) :
    (q.layOutAll s predicates).Binds (bound ++ predicates.flatMap Expr.strings) := by
  induction predicates generalizing q s bound with
  | nil => rwa [List.flatMap_nil, List.append_nil]
  | cons p predicates ih =>
    rw [List.flatMap_cons, ← List.append_assoc]
    refine ih ?_
    rw [← Scope.rowStrings_atoms]
    exact hs.restrict _ _

theorem run_same (q : Delete) (predicates : List Expr) :
    (q.run predicates).value.compiler = q.compiler ∧
      (q.run predicates).value.schema = q.schema := by
  induction predicates generalizing q with
  | nil => exact ⟨rfl, rfl⟩
  | cons p predicates ih => exact ih (q.filter p).value

theorem clean_given {e : Entity} (he : e.Clean) {target : Option Target}
    (htarget : ∀ t ∈ target, ∀ v ∈ t.values, v.Clean) {first : List Expr}
    (hfirst : given e target = some first) : ∀ p ∈ first, p.Clean := by
  cases target with
  | none =>
    cases hfirst
    exact List.forall_mem_nil _
  | some t =>
    obtain ⟨predicate, hpredicate, rfl⟩ := Option.map_eq_some_iff.1 hfirst
    intro p hp
    rw [List.mem_singleton.1 hp]
    exact Key.clean_predicate he (htarget t rfl) (toOption_eq_some.1 hpredicate)

end Delete

namespace Insert

def outline (q : Insert) : Outline where
  blocks := [.text 1 .insert ("INSERT INTO " ++ q.schema.name),
    .listing { key := 2, tag := .insertFields }, .listing { key := 3, tag := .values }]
  nextKey := 4

def column (f : FieldDef) (key : Key) : Entry :=
  .column key (.named f.memberName)

def value (f : FieldDef) (v : Value) (key : Key) : Entry :=
  .parameter key { source := .value v, declared := some f.columnType }

def addToOutline (s : Outline) (pair : FieldDef × Value) : Outline :=
  (s.enter .insertFields (column pair.1)).enter .values (value pair.1 pair.2)

theorem map_pairs (c : Compiler) (e : Entity) (values : List Value) (ignored : List String) :
    (Insert.pairs { Insert.ofInstance c e values with ignored }).map
        (fun pair => (pair.1.member, pair.2)) = listed e values ignored := by
  rw [listed, ← Schema.map_member e, List.zip_map_left, List.filter_map]
  rfl

theorem drawn_opening (q : Insert) : Drawn q.opening q.outline [.insertFields, .values] where
  draft_eq := rfl
  keyed := by
    constructor <;> simp [outline, Outline.keys, Block.keys_text, Block.keys_listing]
  list tag htag := by
    obtain rfl | rfl := List.mem_pair.1 htag
    · exact ⟨rfl, _, List.mem_cons_of_mem _ List.mem_cons_self, rfl⟩
    · exact ⟨rfl, _, List.mem_cons_of_mem _ (List.mem_cons_of_mem _ List.mem_cons_self), rfl⟩
  isOpen b hb := by
    obtain rfl | hb := List.mem_cons.1 hb
    · rfl
    · obtain rfl | rfl := List.mem_pair.1 hb <;> rfl

theorem clean_outline {q : Insert} (hname : Text.Clean q.schema.name) : q.outline.Clean where
  blocks b hb := by
    obtain rfl | hb := List.mem_cons.1 hb
    · exact Text.Clean.append (by decide) hname
    · obtain rfl | rfl := List.mem_pair.1 hb <;> exact fun e he => nomatch he
  aliases := by simp [outline]

theorem drawn_addPair {d : Draft} {s : Outline} (h : Drawn d s [.insertFields, .values])
    (pair : FieldDef × Value) :
    Drawn (addPair d pair.1 pair.2) (addToOutline s pair) [.insertFields, .values] := by
  have hcolumn := h.enter (e := column pair.1) List.mem_cons_self fun _ => rfl
  exact hcolumn.enter (e := value pair.1 pair.2) (List.mem_cons_of_mem _ List.mem_cons_self)
    fun _ => rfl

theorem clean_addToOutline {s : Outline} (hs : s.Clean) {pair : FieldDef × Value}
    (hname : Text.Clean pair.1.memberName) (hv : pair.2.Clean) : (addToOutline s pair).Clean := by
  have hcolumn (key : Key) : (column pair.1 key).Clean := ⟨hname, nofun, nofun, nofun⟩
  have hvalue (key : Key) : (value pair.1 pair.2 key).Clean := ⟨nofun, pair.2, rfl, hv⟩
  exact (hs.enter hcolumn _).enter hvalue _

theorem drawn_addPairs {d : Draft} {s : Outline} (h : Drawn d s [.insertFields, .values])
    (pairs : List (FieldDef × Value)) :
    Drawn (pairs.foldl (fun d pair => addPair d pair.1 pair.2) d) (pairs.foldl addToOutline s)
      [.insertFields, .values] := by
  induction pairs generalizing d s with
  | nil => exact h
  | cons pair pairs ih => exact ih (drawn_addPair h pair)

theorem drawn_draft (q : Insert) :
    Drawn q.draft (q.pairs.foldl addToOutline q.outline) [.insertFields, .values] :=
  drawn_addPairs q.drawn_opening q.pairs

theorem clean_addPairs {s : Outline} (hs : s.Clean) {pairs : List (FieldDef × Value)}
    (hpairs : ∀ pair ∈ pairs, Text.Clean pair.1.memberName ∧ pair.2.Clean) :
    (pairs.foldl addToOutline s).Clean := by
  induction pairs generalizing s with
  | nil => exact hs
  | cons pair pairs ih =>
    obtain ⟨hname, hv⟩ := hpairs pair List.mem_cons_self
    exact ih (clean_addToOutline hs hname hv) fun pair' hmem =>
      hpairs pair' (List.mem_cons_of_mem _ hmem)

theorem binds_outline (q : Insert) : q.outline.Binds [] where
  settled b hb := by
    obtain rfl | hb := List.mem_cons.1 hb
    · exact trivial
    · obtain rfl | rfl := List.mem_pair.1 hb <;> exact fun e he => nomatch he
  perm := .refl []

theorem binds_addPairs {d : Draft} {s : Outline} {bound : List String}
    (h : Drawn d s [.insertFields, .values]) (hs : s.Binds bound)
    (pairs : List (FieldDef × Value)) :
    (pairs.foldl addToOutline s).Binds (bound ++ pairs.filterMap fun pair => pair.2.string?) := by
  induction pairs generalizing d s bound with
  | nil => rwa [List.filterMap_nil, List.append_nil]
  | cons pair pairs ih =>
    have hcolumn := h.enter (e := column pair.1) List.mem_cons_self fun _ => rfl
    obtain ⟨htag, hlist⟩ := hcolumn.list .values (List.mem_cons_of_mem _ List.mem_cons_self)
    have hvalue : (addToOutline s pair).Binds (bound ++ pair.2.string?.toList) :=
      (hs.enter_column .insertFields (.named pair.1.memberName)).enter htag hlist hcolumn.isOpen
        fun _ => ⟨⟨pair.2, rfl⟩, rfl⟩
    have hrest := ih (drawn_addPair h pair) hvalue
    rw [List.append_assoc] at hrest
    cases hstring : pair.2.string? <;> simpa [hstring] using hrest

end Insert

end SqlComposer
