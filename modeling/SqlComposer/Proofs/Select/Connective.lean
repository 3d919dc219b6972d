import SqlComposer.Proofs.Select.Assembled

/-!
# Connectives

What goes on with a condition or an ordering is nested in a clause of that sort, if the calls before
it started one, and stands at the top of the statement if they did not.
-/
namespace SqlComposer

def Joint.hosts : Joint → Tag → Bool
  | .and | .or => fun t => t.isJoin || t == .whereClause
  | .thenBy | .thenByDesc => Tag.startsOrder

namespace Select

/-- What a call goes on with a clause by. -/
def Call.addition? (scope : Scope) : Call → Option (Joint × Phrase)
  | .andFilter e => some (.and, ⟨scope, e⟩)
  | .orFilter e => some (.or, ⟨scope, e⟩)
  | .thenBy d e => some (d.joint, ⟨scope, e⟩)
  | _ => none

namespace Clauses

variable {x x' y z : Clauses} {k : ClauseKind} {calls : List Call} {call : Call}
  {addition : Joint × Phrase}

/-- What goes on with a clause, or goes astray, is still there. -/
structure Grows (x x' : Clauses) : Prop where
  additions : ∀ k, k ≠ .strays → ∀ p ∈ x.of k, ∃ p' ∈ x'.of k, p.additions ⊆ p'.additions
  strays : x.strays ⊆ x'.strays

theorem Grows.refl (x : Clauses) : x.Grows x :=
  ⟨fun _ _ p hp => ⟨p, hp, List.Subset.refl _⟩, List.Subset.refl _⟩

theorem Grows.trans (hxy : x.Grows y) (hyz : y.Grows z) : x.Grows z := by
  refine ⟨fun k hk p hp => ?_, List.Subset.trans hxy.strays hyz.strays⟩
  obtain ⟨p', hp', hsub⟩ := hxy.additions k hk p hp
  obtain ⟨p'', hp'', hsub'⟩ := hyz.additions k hk p' hp'
  exact ⟨p'', hp'', List.Subset.trans hsub hsub'⟩

theorem Grows.of_append {l : List Predicate} (hof : x'.of k = x.of k ++ l)
    (hsame : ∀ k', k' ≠ k → x'.of k' = x.of k') (hstrays : x.strays ⊆ x'.strays) : x.Grows x' := by
  refine ⟨fun k' _ p hp => ⟨p, ?_, List.Subset.refl _⟩, hstrays⟩
  by_cases hk : k' = k
  · subst hk
    rw [hof]
    exact List.mem_append_left _ hp
  · rwa [hsame k' hk]

theorem Grows.of_extend {front : List Predicate} {p : Predicate} (hx : x.of k = front ++ [p])
    (joint : Joint) (phrase : Phrase) (hof : x'.of k = front ++ [p.extend joint phrase])
    (hsame : ∀ k', k' ≠ k → x'.of k' = x.of k') (hstrays : x.strays ⊆ x'.strays) : x.Grows x' := by
  refine ⟨fun k' _ p' hp' => ?_, hstrays⟩
  by_cases hk : k' = k
  · subst hk
    rw [hx] at hp'
    rw [hof]
    obtain hp' | hp' := List.mem_append.1 hp'
    · exact ⟨p', List.mem_append_left _ hp', List.Subset.refl _⟩
    · rw [List.mem_singleton.1 hp']
      exact ⟨_, List.mem_append_right _ List.mem_cons_self, List.subset_append_left _ _⟩
  · exact ⟨p', by rwa [hsame k' hk], List.Subset.refl _⟩

theorem grows_leave (x : Clauses) (joint : Joint) (e : Expr) : x.Grows (x.leave joint e) :=
  .of_append (x.of_leave joint e).1 (x.of_leave joint e).2 (List.subset_append_left _ _)

theorem grows_chain (x : Clauses) (joint : Joint) (e : Expr) : x.Grows (x.chain joint e) := by
  rw [chain]
  split_ifs with hcondition
  · obtain ⟨front, p, hx⟩ := exists_last_of_hasCondition hcondition
    exact .of_extend hx joint ⟨x.plan.scope, e⟩ (of_extend hx joint e).1 (of_extend hx joint e).2
      (List.Subset.refl _)
  · exact x.grows_leave joint e

theorem grows_orderBy (x : Clauses) (d : Direction) (e : Expr) : x.Grows (x.orderBy d e) := by
  have hsame : ∀ k, k ≠ .ordering → (x.orderBy d e).of k = x.of k := fun k => x.of_orderBy d e
  cases ho : x.ordering with
  | none =>
    refine .of_append (k := .ordering) (l := [{ tag := d.tag, condition := ⟨x.plan.scope, e⟩ }])
      ?_ hsame (List.Subset.refl _)
    simp [of, orderBy, ho]
  | some o =>
    have hx : x.of .ordering = [] ++ [o] := congrArg Option.toList ho
    refine .of_extend hx d.joint ⟨x.plan.scope, e⟩ ?_ hsame (List.Subset.refl _)
    simp [of, orderBy, ho]

theorem grows_step (x : Clauses) (call : Call) : x.Grows (x.step call) := by
  cases call with
  | join | joinAs => exact .of_append (k := .joins) rfl (fun k => x.of_join) (List.Subset.refl _)
  | filter e =>
    cases hr : x.plan.restriction with
    | none =>
      refine .of_append (k := .restriction)
        (l := [{ tag := .whereClause, condition := ⟨x.plan.scope, e⟩ }]) ?_ (fun k => x.of_filter e)
        (List.Subset.refl _)
      simp [of, step, Plan.step, Plan.filter, hr]
    | some r =>
      have hx : x.of .restriction = [] ++ [r] := congrArg Option.toList hr
      refine .of_extend hx .and ⟨x.plan.scope, e⟩ ?_ (fun k => x.of_filter e) (List.Subset.refl _)
      simp [of, step, Plan.step, Plan.filter, hr]
  | andFilter e => exact x.grows_chain .and e
  | orFilter e => exact x.grows_chain .or e
  | orderBy d e => exact x.grows_orderBy d e
  | thenBy d e =>
    rw [step, thenBy]
    split_ifs
    · exact x.grows_orderBy d e
    · exact x.grows_leave d.joint e
  | groupBy | map | mapAs | mapWith | ignore => exact .refl x
  | forType =>
    exact ⟨fun k _ p hp => ⟨p, by cases k <;> exact hp, List.Subset.refl _⟩, List.Subset.refl _⟩

theorem grows_after (x : Clauses) (calls : List Call) : x.Grows (x.after calls) := by
  induction calls generalizing x with
  | nil => exact .refl x
  | cons call calls ih => exact (x.grows_step call).trans (ih (x.step call))

theorem exists_addition_of_takes (hcall : call.addition? x.plan.scope = some addition)
    (htakes : x.takes call = true) :
    ∃ k, k ≠ .strays ∧ (∀ t, k.has t = true → addition.1.hosts t = true) ∧
      ∃ p ∈ (x.step call).of k, addition ∈ p.additions := by
  have hchain (joint : Joint) (e : Expr) (hcondition : x.hasCondition = true) :
      ∃ p ∈ (x.chain joint e).of x.plan.latest, (joint, ⟨x.plan.scope, e⟩) ∈ p.additions := by
    obtain ⟨front, p, hx⟩ := exists_last_of_hasCondition hcondition
    rw [chain, if_pos hcondition, (of_extend hx joint e).1]
    exact ⟨_, List.mem_append_right _ List.mem_cons_self,
      List.mem_append_right _ List.mem_cons_self⟩
  have hlatest : ∀ t, x.plan.latest.has t = true → (t.isJoin || t == .whereClause) = true := by
    intro t ht
    rw [Plan.latest] at ht
    split_ifs at ht
    · exact Bool.or_eq_true_iff.2 (.inr ht)
    · exact Bool.or_eq_true_iff.2 (.inl ht)
  cases call with
  | andFilter e =>
    cases hcall
    exact ⟨_, x.plan.latest_ne.2, hlatest, hchain .and e htakes⟩
  | orFilter e =>
    cases hcall
    exact ⟨_, x.plan.latest_ne.2, hlatest, hchain .or e htakes⟩
  | thenBy d e =>
    cases hcall
    obtain ⟨o, ho⟩ := Option.isSome_iff_exists.1 htakes
    refine ⟨.ordering, by decide, by cases d <;> exact fun _ ht => ht,
      o.extend d.joint ⟨x.plan.scope, e⟩, ?_, List.mem_append_right _ List.mem_cons_self⟩
    simp [step, thenBy, orderBy, of, ho]
  | _ => cases hcall

theorem mem_strays_of_not_takes (hcall : call.addition? x.plan.scope = some addition)
    (htakes : ¬x.takes call = true) : addition ∈ (x.step call).strays := by
  have hleave (joint : Joint) (e : Expr) :
      (joint, (⟨x.plan.scope, e⟩ : Phrase)) ∈ (x.leave joint e).strays :=
    List.mem_append_right _ List.mem_cons_self
  cases call with
  | andFilter e | orFilter e =>
    cases hcall
    rw [takes] at htakes
    rw [step, chain, if_neg htakes]
    exact hleave _ e
  | thenBy d e =>
    cases hcall
    rw [takes] at htakes
    rw [step, thenBy, if_neg htakes]
    exact hleave _ e
  | _ => cases hcall

end Clauses

theorem Predicate.Stands.exists_child {x : Predicate} {p : Part} (h : x.Stands p)
    {addition : Joint × Phrase} (ha : addition ∈ x.additions) :
    ∃ child ∈ p.children, Continues addition child := by
  obtain ⟨key, body, nested, -, hnested, rfl⟩ := h
  obtain ⟨child, hchild, hcontinues⟩ := exists_mem_of_forall₂ hnested ha
  exact ⟨child, List.mem_append_right _ hchild, hcontinues⟩

theorem Predicate.Stands.alone {addition : Joint × Phrase} {p : Part}
    (h : (Predicate.alone addition).Stands p) : Continues addition p := by
  obtain ⟨key, body, nested, hbody, hnested, rfl⟩ := h
  cases hnested
  exact ⟨key, body, hbody, by rw [List.append_nil]; rfl⟩

variable {x : Clauses} {q : Select} {s : Outline} {calls before after : List Call} {call : Call}
  {addition : Joint × Phrase}

theorem Assembled.strays_eq_nil_iff (h : Assembled x q s) :
    x.strays = [] ↔ ∀ p ∈ q.draft.parts, p.tag.isConnective = false := by
  have hstands := (h.clauses .strays).stands
  rw [← h.laid.draft_eq] at hstands
  have hlength := hstands.length_eq
  rw [Clauses.of, List.length_map] at hlength
  rw [← List.length_eq_zero_iff, hlength, List.length_eq_zero_iff, List.filter_eq_nil_iff]
  simp [ClauseKind.has]

theorem Assembled.stands (h : Assembled x q s) (k : ClauseKind) :
    List.Forall₂ Predicate.Stands (x.of k) (q.draft.parts.filter fun p => k.has p.tag) :=
  h.laid.draft_eq ▸ (h.clauses k).stands

theorem Assembled.nested (h : Assembled x q s) {y : Clauses} (hy : y.Grows x) {k : ClauseKind}
    (hk : k ≠ .strays) {p : Predicate} (hp : p ∈ y.of k) (ha : addition ∈ p.additions) :
    ∃ part ∈ q.draft.parts, k.has part.tag = true ∧
      ∃ child ∈ part.children, Continues addition child := by
  obtain ⟨p', hp', hsub⟩ := hy.additions k hk p hp
  obtain ⟨part, hpart, hstands⟩ := exists_mem_of_forall₂ (h.stands k) hp'
  obtain ⟨hmem, htag⟩ := List.mem_filter.1 hpart
  exact ⟨part, hmem, htag, hstands.exists_child (hsub ha)⟩

theorem Assembled.astray (h : Assembled x q s) {y : Clauses} (hy : y.Grows x)
    (ha : addition ∈ y.strays) : ∃ part ∈ q.draft.parts, Continues addition part := by
  obtain ⟨part, hpart, hstands⟩ := exists_mem_of_forall₂ (h.stands .strays)
    (List.mem_map_of_mem (hy.strays ha))
  exact ⟨part, List.mem_of_mem_filter hpart, hstands.alone⟩

/-- A connective is nested in a clause of its sort just if the calls before it started one, and no
connective stands at the top just if every call has what it goes on with. -/
theorem connectives_nested (c : Compiler) (o : Opening) (calls : List Call) (q : Select)
    (hbuilt : (built c o calls).outcome = .ok q) :
    (∀ before call after addition, calls = before ++ call :: after →
      call.addition? ((Plan.opening o.entity o.tableAlias).after before).scope = some addition →
      if call.fits before then
        ∃ p ∈ q.draft.parts, addition.1.hosts p.tag = true ∧
          ∃ child ∈ p.children, Continues addition child
      else ∃ p ∈ q.draft.parts, Continues addition p) ∧
    ((∀ p ∈ q.draft.parts, p.tag.isConnective = false) ↔ WellPlaced calls) := by
  obtain ⟨s, h⟩ := (Assembled.opened c o.entity o.tableAlias).run (built_eq_ok hbuilt).2
  refine ⟨fun before call after addition hsplit hcall => ?_,
    h.strays_eq_nil_iff.symm.trans (strays_eq_nil_iff _ _ _)⟩
  let x := (Clauses.opening o.entity o.tableAlias).after before
  have hgrows : (x.step call).Grows ((Clauses.opening o.entity o.tableAlias).after calls) := by
    have hafter : (Clauses.opening o.entity o.tableAlias).after calls =
        (x.step call).after after := by
      rw [hsplit, Clauses.after, List.foldl_append]
      rfl
    rw [hafter]
    exact Clauses.grows_after _ after
  rw [← Clauses.scope_after] at hcall
  have htakes := Clauses.takes_after o.entity o.tableAlias before call
  split_ifs with hfits
  · obtain ⟨k, hk, hhosts, p, hp, ha⟩ := Clauses.exists_addition_of_takes hcall (htakes.2 hfits)
    obtain ⟨part, hpart, htag, hchild⟩ := h.nested hgrows hk hp ha
    exact ⟨part, hpart, hhosts _ htag, hchild⟩
  · exact h.astray hgrows (Clauses.mem_strays_of_not_takes hcall (htakes.not.2 hfits))

/-- A condition ahead of the first filter, and an ordering behind none. -/
theorem connectives_nested_early :
    let customer : Entity := ⟨"Customer", [⟨"Id", .int, false⟩, ⟨"Name", .string, true⟩]⟩
    let early : Call := .andFilter (.col "Paid")
    let late : Call := .andFilter (.col "Due")
    let calls : List Call := [early, .filter (.col "Open"), late, .thenBy .descending (.col "Id")]
    let scope : Scope := { entity := some "Customer" }
    ∃ q, (built {} (.from customer) calls).outcome = .ok q ∧
      ¬early.fits [] ∧ (∃ p ∈ q.draft.parts, Continues (.and, ⟨scope, .col "Paid"⟩) p) ∧
      late.fits [early, .filter (.col "Open")] ∧
      (∃ p ∈ q.draft.parts, Joint.and.hosts p.tag = true ∧
        ∃ child ∈ p.children, Continues (.and, ⟨scope, .col "Due"⟩) child) ∧
      ((∀ p ∈ q.draft.parts, p.tag.isConnective = false) ↔ WellPlaced calls) := by
  intro customer early late calls scope
  obtain ⟨q, hq⟩ : ∃ q, (built {} (.from customer) calls).outcome = .ok q := ⟨_, rfl⟩
  obtain ⟨hconnectives, hplaced⟩ := connectives_nested {} (.from customer) calls q hq
  have hearly : ¬early.fits [] := by decide
  have hlate : late.fits [early, .filter (.col "Open")] := by decide
  have hastray := hconnectives [] early _ _ rfl rfl
  have hnested := hconnectives [early, .filter (.col "Open")] late _ _ rfl rfl
  rw [if_neg hearly] at hastray
  rw [if_pos hlate] at hnested
  exact ⟨q, hq, hearly, hastray, hlate, hnested, hplaced⟩

/-- A condition that comes before the first filter stands ahead of the restriction. -/
theorem connective_at_top :
    let customer : Entity := ⟨"Customer", [⟨"Id", .int, false⟩, ⟨"Name", .string, true⟩]⟩
    let calls : List Call :=
      [.andFilter (.equals (.col "Id") (.constant (.int 3))),
        .filter (.equals (.col "Name") (.constant (.string "x")))]
    ∃ q compiled, (built {} (.from customer) calls).outcome = .ok q ∧
      q.compile.outcome = .ok compiled ∧
      q.draft.parts.map Part.tag = [.select, .fromClause, .andClause, .whereClause] ∧
      compiled.sql = "select Customer.Id, Customer.Name FROM Customer AND (Customer.Id = 3) " ++
        "WHERE (Customer.Name = 'x')" := by
  intro customer calls
  obtain ⟨q, hq⟩ : ∃ q, (built {} (.from customer) calls).outcome = .ok q := ⟨_, rfl⟩
  cases hq
  exact ⟨_, _, rfl, rfl, rfl, by decide +kernel⟩

end Select

end SqlComposer
