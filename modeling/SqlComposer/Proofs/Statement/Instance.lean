import SqlComposer.Proofs.Statement.Key

/-!
# Updates and deletions of an instance

An update assigns the members of an instance that its row is not found by, and goes to the row that
has the values of the other ones. A deletion of the instance goes to the same row. Neither comes
about without a member to find the row by.
-/
namespace SqlComposer

attribute [ext] Outline

/-! ### Updates -/

theorem Tag.frame?_assignments : Tag.assignments.frame?.isSome := rfl

theorem Tag.frame?_whereClause : Tag.whereClause.frame? = none := rfl

namespace Update

def assignment (pair : Member × Value) : Parameter where
  source := .value pair.2
  name := some pair.1.name
  declared := some pair.1.columnType

def assigning (table : String) (pairs : List (Member × Value)) : Outline where
  blocks := [.text 1 .update ("UPDATE " ++ table),
    .listing
      { key := 2, tag := .assignments
        entries := (pairs.zipIdx 3).map fun a => .parameter a.2 (assignment a.1)
        opensList := Tag.frame?_assignments }]
  nextKey := 3 + pairs.length

variable {c : Compiler} {e : Entity} {t : Target} {q : Update} {pairs : List (Member × Value)}

theorem enter_assigning (table : String) (pairs : List (Member × Value))
    (pair : Member × Value) :
    (assigning table pairs).enter .assignments (.parameter · (assignment pair)) =
      assigning table (pairs ++ [pair]) := by
  ext1
  · have hblocks := Outline.blocks_enter (s := assigning table pairs) [_] rfl
      (List.forall_mem_nil _) (.parameter · (assignment pair))
    rw [hblocks]
    simp only [assigning, Listing.enter, List.zipIdx_append, List.zipIdx_singleton,
      List.map_append, List.map_singleton]
    rfl
  · rfl
  · simp only [assigning, Outline.enter, List.length_append, List.length_singleton, Nat.add_assoc]

theorem drawn_set (hq : q.schema = Schema.ofEntity e) (hnodup : (e.members.map Member.name).Nodup)
    (h : Drawn q.draft (assigning e.name pairs) [.assignments]) {pair : Member × Value}
    (hpair : pair.1 ∈ e.members) :
    Drawn (q.set pair.1.name pair.2).draft (assigning e.name (pairs ++ [pair])) [.assignments] := by
  have hdeclared := Schema.columnType_field? hnodup hpair
  rw [← hq] at hdeclared
  have hentry : q.entry pair.1.name pair.2 = (.parameter · (assignment pair)) := by
    funext key
    rw [entry, hdeclared]
    rfl
  rw [← enter_assigning, ← hentry]
  exact drawn_apply h (.set pair.1.name pair.2)

theorem drawn_sets (hq : q.schema = Schema.ofEntity e) (hnodup : (e.members.map Member.name).Nodup)
    (h : Drawn q.draft (assigning e.name pairs) [.assignments]) {more : List (Member × Value)}
    (hmore : ∀ pair ∈ more, pair.1 ∈ e.members) :
    Drawn (more.foldl (fun q pair => q.set pair.1.name pair.2) q).draft
      (assigning e.name (pairs ++ more)) [.assignments] := by
  induction more generalizing q pairs with
  | nil => exact (List.append_nil pairs).symm ▸ h
  | cons pair more ih =>
    rw [List.forall_mem_cons] at hmore
    have hlater := ih (q := q.set pair.1.name pair.2) hq (drawn_set hq hnodup h hmore.1) hmore.2
    rwa [List.append_assoc] at hlater

theorem assignments_eq (e : Entity) (t : Target) (predicate : Expr) :
    assignments (Schema.ofEntity e) t predicate =
      ((t.assigned e).map fun pair => Call.set pair.1.name pair.2) ++ [Call.filter predicate] := by
  rw [assignments, Target.assigned, Target.row, ← Schema.map_zip, List.filter_map, List.map_map]
  have hkeep : ∀ pair ∈ (Schema.ofEntity e).fields.zip t.values,
      (!(Key.members (Schema.ofEntity e) t.key).contains pair.1.memberName) =
        !e.isKey t.key pair.1.member := by
    intro pair hpair
    have hmem : pair.1.member ∈ e.members := by
      rw [← Schema.map_member e]
      exact List.mem_map_of_mem (List.of_mem_zip hpair).1
    exact congrArg (!·) (Key.contains_members e t.key hmem)
  rw [List.filter_congr hkeep]
  rfl

def addressing (table : String) (pairs : List (Member × Value)) (atoms : List Atom) : Outline where
  blocks := (assigning table pairs).blocks ++
    [.clause
      { key := 3 + pairs.length, tag := .whereClause, atoms, opensNoList := Tag.frame?_whereClause }]
  nextKey := 3 + pairs.length + (atoms.length + 1)

theorem restrict_assigning (table : String) (pairs : List (Member × Value)) (atoms : List Atom) :
    (assigning table pairs).restrict (fun _ => false) atoms = addressing table pairs atoms := rfl

theorem outcome_ofInstance (c : Compiler) (h : t.Fits e) :
    ∃ first rest q, t.addressed e = first :: rest ∧
      (ofInstance c e t.values t.key).outcome = .ok q ∧ q.compiler = c ∧
      q.schema = Schema.ofEntity e ∧
      Drawn q.draft (addressing e.name (t.assigned e)
        ((Scope.ofTable e.name).atoms (Key.conjunction first rest)).value) [.assignments] := by
  rcases Key.predicate_of_fits h with ⟨first, rest, haddressed, hpredicate⟩
  have hresult := result?_ofInstance c e t
  rw [hpredicate, Except.toOption, Option.map_some, Rendering.result?_eq_some] at hresult
  have hsame := run_same (ofEntity c e)
    (assignments (Schema.ofEntity e) t (Key.conjunction first rest))
  refine ⟨first, rest, _, haddressed, hresult, hsame.1, hsame.2, ?_⟩
  have hmembers : ∀ pair ∈ t.assigned e, pair.1 ∈ e.members := fun _ hpair =>
    (List.of_mem_zip (List.mem_filter.1 hpair).1).1
  have hopening : Drawn (ofEntity c e).draft (assigning e.name []) [.assignments] :=
    drawn_ofEntity c e
  have hassigned := drawn_sets rfl h.nodup hopening hmembers
  rw [List.nil_append, ← value_run_set] at hassigned
  rw [assignments_eq, value_run_append, ← restrict_assigning]
  have hrestricted := drawn_apply hassigned (.filter (Key.conjunction first rest))
  rw [Call.layOut, (run_same _ _).2] at hrestricted
  exact hrestricted

variable {atoms : List Atom}

theorem parts_addressing (h : Drawn q.draft (addressing e.name pairs atoms) [.assignments]) :
    q.draft.parts =
      [.text 1 .update ("UPDATE " ++ e.name),
        .list 2 .assignments ((pairs.zipIdx 3).map fun a => .parameter a.2 .plain (assignment a.1)),
        .clause (3 + pairs.length) .whereClause none none
          (Part.ofAtoms (3 + pairs.length + 1) atoms)] := by
  rw [h.draft_eq]
  change [_, Block.part (.listing _), Block.part (.clause _)] = _
  simp only [Block.part, List.map_map, List.map_nil, List.append_nil]
  rfl

theorem assignmentCount_addressing
    (h : Drawn q.draft (addressing e.name pairs atoms) [.assignments]) :
    q.assignmentCount = pairs.length := by
  have hgroups : q.draft.partsOf .assignments = [.list 2 .assignments
      ((pairs.zipIdx 3).map fun a => .parameter a.2 .plain (assignment a.1))] := by
    rw [Tree.partsOf, parts_addressing h]
    rfl
  rw [assignmentCount, hgroups, List.flatMap_singleton]
  simp [Part.list, Part.children]

theorem compile_addressing (hq : q.schema = Schema.ofEntity e)
    (h : Drawn q.draft (addressing e.name pairs atoms) [.assignments]) :
    (pairs = [] → q.compile.outcome =
      .error (.missingArgument "set" ("UPDATE " ++ e.name ++ " has no assignments"))) ∧
    (pairs ≠ [] → ∃ compiled, q.compile.outcome = .ok compiled) := by
  constructor
  · rintro rfl
    rw [compile, assignmentCount_addressing h, hq]
    rfl
  · intro hpairs
    have hcount : q.assignmentCount ≠ 0 := by
      rw [assignmentCount_addressing h]
      exact fun hzero => hpairs (List.length_eq_zero_iff.1 hzero)
    rw [compile, if_neg hcount, h.draft_eq]
    exact ⟨_, Outline.outcome_compile _ _⟩

end Update

/-! ### Deletions -/

theorem Delete.outcome_ofInstance (c : Compiler) {e : Entity} {t : Target} (h : t.Fits e) :
    ∃ first rest q, t.addressed e = first :: rest ∧
      (ofInstance c e t.values t.key).outcome = .ok q ∧ q.compiler = c ∧
      q.draft.parts =
        [.list 1 .delete, .clause 2 .fromClause (some e.name) none [],
          .clause 3 .whereClause none none
            (Part.ofAtoms 4 ((Scope.ofTable e.name).atoms (Key.conjunction first rest)).value)] := by
  rcases Key.predicate_of_fits h with ⟨first, rest, haddressed, hpredicate⟩
  have hresult := result?_ofInstance c e t
  rw [hpredicate, Except.toOption, Option.map_some, Rendering.result?_eq_some] at hresult
  refine ⟨first, rest, _, haddressed, hresult, rfl, ?_⟩
  have hrestricted := (drawn_ofEntity c e).restrict (.ofTable e.name) (Key.conjunction first rest)
  refine (congrArg (fun d : Draft => d.parts) hrestricted.draft_eq).trans ?_
  change [_, _, Block.part (.clause _)] = _
  simp only [Block.part, List.map_nil, List.append_nil]
  rfl

/-! ### The two sides of the key -/

theorem outcomes_of_unkeyed (c : Compiler) {e : Entity} {t : Target}
    (h : ∀ m ∈ e.members, e.isKey t.key m = false) :
    (Update.ofInstance c e t.values t.key).outcome = .error (Key.refusal e t.key) ∧
      (Delete.ofInstance c e t.values t.key).outcome = .error (Key.refusal e t.key) := by
  have hpredicate := Key.predicate_of_unkeyed t.values h
  constructor
  · rw [Update.ofInstance, Rendering.outcome_bind, Rendering.outcome_liftExcept]
    change (Key.predicate (Schema.ofEntity e) t.values t.key >>= _) = _
    rw [hpredicate]
    rfl
  · rw [Delete.ofInstance, Rendering.outcome_bind, Rendering.outcome_liftExcept]
    change (Key.predicate (Schema.ofEntity e) t.values t.key >>= _) = _
    rw [hpredicate]
    rfl

/-- Every member of an instance is either assigned by its update or compared in the restriction,
both in order and with the value that it has on the instance, and a comparison with `NULL` is a
test. An update without a member to assign is refused when it is compiled. Where no member belongs
to the key, neither an update nor a deletion comes about. -/
theorem update_splits_instance (c : Compiler) (e : Entity) (t : Target) :
    (t.Fits e → ∃ q first rest key,
      (Update.ofInstance c e t.values t.key).outcome = .ok q ∧
      t.addressed e = first :: rest ∧ (t.addressed e ++ t.assigned e).Perm (t.row e) ∧
      q.draft.parts =
        [.text 1 .update ("UPDATE " ++ e.name),
          .list 2 .assignments
            (((t.assigned e).zipIdx 3).map fun a => .parameter a.2 .plain (Update.assignment a.1)),
          .clause key .whereClause none none (Part.ofAtoms (key + 1)
            ((Scope.ofTable e.name).atoms (Key.conjunction first rest)).value)] ∧
      (∀ said, Reads (Part.ofAtoms (key + 1)
          ((Scope.ofTable e.name).atoms (Key.conjunction first rest)).value) said ↔
        said = (rest.map (Key.said e.name)).foldl (.binary .and) (Key.said e.name first)) ∧
      (q.compile.outcome =
          .error (.missingArgument "set" ("UPDATE " ++ e.name ++ " has no assignments")) ↔
        ∀ m ∈ e.members, e.isKey t.key m = true) ∧
      ((∃ m ∈ e.members, e.isKey t.key m = false) → ∃ compiled, q.compile.outcome = .ok compiled)) ∧
    ((∀ m ∈ e.members, e.isKey t.key m = false) →
      (Update.ofInstance c e t.values t.key).outcome = .error (Key.refusal e t.key) ∧
      (Delete.ofInstance c e t.values t.key).outcome = .error (Key.refusal e t.key)) := by
  refine ⟨fun h => ?_, outcomes_of_unkeyed c⟩
  rcases Update.outcome_ofInstance c h with ⟨first, rest, q, haddressed, hq, -, hschema, hdrawn⟩
  rcases Update.compile_addressing hschema hdrawn with ⟨hrefused, hcompiled⟩
  refine ⟨q, first, rest, _, hq, haddressed, t.addressed_append_assigned e,
    Update.parts_addressing hdrawn, Key.reads_predicate e.name first rest _, ⟨?_, ?_⟩, ?_⟩
  · intro hfault
    refine h.assigned_eq_nil_iff.1 ?_
    by_contra hassigned
    rcases hcompiled hassigned with ⟨compiled, hok⟩
    rw [hfault] at hok
    cases hok
  · exact fun hall => hrefused (h.assigned_eq_nil_iff.2 hall)
  · rintro ⟨m, hm, hkey⟩
    refine hcompiled fun hassigned => ?_
    have hall := h.assigned_eq_nil_iff.1 hassigned m hm
    rw [hkey] at hall
    cases hall

/-- Two members to find a row by, one of them without a value, and a key that is no member. -/
theorem update_splits_line :
    let line : Entity := ⟨"Line", [⟨"Id", .int, false⟩, ⟨"Qty", .int, false⟩,
      ⟨"LINEID", .string, true⟩, ⟨"Note", .string, true⟩]⟩
    let t : Target := { values := [.int 7, .int 3, .null, .string "late"] }
    t.Fits line ∧
      (∃ q key atoms, (Update.ofInstance {} line t.values none).outcome = .ok q ∧
        q.draft.parts =
          [.text 1 .update "UPDATE Line",
            .list 2 .assignments
              [.parameter 3 .plain
                { source := .value (.int 3), name := some "Qty", declared := some .int },
              .parameter 4 .plain
                { source := .value (.string "late"), name := some "Note", declared := some .string }],
            .clause key .whereClause none none (Part.ofAtoms (key + 1) atoms)] ∧
        Reads (Part.ofAtoms (key + 1) atoms) (.binary .and
          (.binary .equal (.column { field := "Id", entity := some "Line" }) (.value (.int 7)))
          (.nullTest true (.column { field := "LINEID", entity := some "Line" }))) ∧
        ∃ compiled, q.compile.outcome = .ok compiled) ∧
      (Delete.ofInstance {} line t.values (some "Total")).outcome =
        .error (.missingArgument "key" "'Total' is not a member of Line") := by
  intro line t
  have hfits : t.Fits line := ⟨by decide, rfl, by decide⟩
  have hkeys : line.isKey none ⟨"Id", .int, false⟩ = true ∧
      line.isKey none ⟨"Qty", .int, false⟩ = false ∧
      line.isKey none ⟨"LINEID", .string, true⟩ = true ∧
      line.isKey none ⟨"Note", .string, true⟩ = false := by decide
  have haddressed : t.addressed line =
      [(⟨"Id", .int, false⟩, .int 7), (⟨"LINEID", .string, true⟩, .null)] := by
    simp [Target.addressed, Target.row, t, hkeys, show line.members = [_, _, _, _] from rfl]
  have hassigned : t.assigned line =
      [(⟨"Qty", .int, false⟩, .int 3), (⟨"Note", .string, true⟩, .string "late")] := by
    simp [Target.assigned, Target.row, t, hkeys, show line.members = [_, _, _, _] from rfl]
  rcases (update_splits_instance {} line t).1 hfits with
    ⟨q, first, rest, key, hq, hfirst, -, hparts, hreads, -, hcompiles⟩
  rw [haddressed] at hfirst
  cases hfirst
  rw [hassigned] at hparts
  have hunkeyed : ∀ m ∈ line.members, line.isKey (some "Total") m = false := by decide
  exact ⟨hfits, ⟨q, key, _, hq, hparts, (hreads _).2 rfl, hcompiles (by decide)⟩,
    ((update_splits_instance {} line { t with key := some "Total" }).2 hunkeyed).2⟩

end SqlComposer
