import SqlComposer.Proofs.Select.Owner

/-!
# Which table a column is read from

Columns that name no table belong to the table that was added last. Fixing the result of a query
moves them to the entity of the result, whether the query has such a table or not, so that they may
be written under no table at all: this happens just if the entity has neither the name of a table
nor the name of an alias.
-/
namespace SqlComposer.Select

/-- What columns without a table belong to behind a call, if the call changes it: a table that it
adds, or the entity that it fixes the result for. -/
def Call.subject? : Call → Option Binding
  | .forType result => some ⟨result.name, none⟩
  | call => call.binding?

def subject (o : Opening) (calls : List Call) : Binding :=
  ((calls.filterMap Call.subject?).getLast?).getD o.binding

/-- How a column is written: under the alias or the table that it names, or else under the subject,
and an entity of which some table has an alias by the first of these. -/
def resolved (tables : List Binding) (subject : Binding) (f : ColumnRef) : String :=
  (match f.tableAlias, f.entity with
    | some a, _ => a
    | none, some e => Binding.qualifier tables ⟨e, none⟩
    | none, none => subject.qualifier tables) ++ "." ++ f.field

variable {c : Compiler} {o : Opening} {calls after : List Call} {call : Call} {q q' : Select}
  {s t : Outline} {chosen : Selection} {all : List Binding} {b : Binding}

/-! ### The subject -/

theorem subject_append (o : Opening) (calls : List Call) (call : Call) :
    subject o (calls ++ [call]) = call.subject?.getD (subject o calls) := by
  rw [subject, List.filterMap_append, subject]
  cases h : call.subject? with
  | none => simp [h]
  | some b => simp [h]

theorem scope_of_apply (h : (call.apply q).outcome = .ok q') :
    q'.scope = (call.subject?.map Binding.scope).getD q.scope := by
  cases call with
  | forType result =>
    cases h
    rfl
  | _ => exact (applied_of_apply h).scope rfl

theorem scope_of_run (hrun : ((Select.start c o.entity o.tableAlias).run calls).outcome = .ok q) :
    q.scope = (subject o calls).scope := by
  refine run_induction (I := fun calls q => q.scope = (subject o calls).scope) [] ?_ rfl hrun
  intro calls call q p ih hcall
  rw [scope_of_apply hcall, ih, subject_append]
  cases call.subject? <;> rfl

theorem subject_mem (o : Opening) (calls : List Call) :
    subject o calls ∈ bindings o calls ∨ (subject o calls).tableAlias = none := by
  induction calls using List.reverseRecOn with
  | nil => exact .inl List.mem_cons_self
  | append_singleton calls call ih =>
    rw [subject_append, bindings_append]
    cases call with
    | forType result => exact .inr rfl
    | join | joinAs => exact .inl (List.mem_append_right _ List.mem_cons_self)
    | _ => exact ih.imp_left (List.mem_append_left _)

/-! ### Qualifiers -/

/-- An entity is qualified with the first alias of its tables, and without one with its name. -/
theorem qualifier_mem_labels_iff (hb : b ∈ all ∨ b.tableAlias = none) :
    b.qualifier all ∈ all.map Binding.label ↔
      ∃ b' ∈ all, b'.name = b.name ∨ b'.tableAlias = some b.name := by
  cases ha : b.tableAlias with
  | some a =>
    have hmem : b ∈ all := hb.resolve_right (by rw [ha]; exact Option.some_ne_none a)
    refine iff_of_true (List.mem_map.2 ⟨b, hmem, ?_⟩) ⟨b, hmem, .inl rfl⟩
    rw [Binding.label, Binding.qualifier, ha]
    rfl
  | none =>
    rw [Binding.qualifier, ha, Option.getD_none]
    cases hfirst : firstAlias all b.name with
    | some a =>
      obtain ⟨b', hb', ha'⟩ := List.exists_of_findSome?_eq_some hfirst
      obtain ⟨hmem, hname⟩ := List.mem_filter.1 hb'
      refine iff_of_true (List.mem_map.2 ⟨b', hmem, ?_⟩) ⟨b', hmem, .inl (beq_iff_eq.1 hname)⟩
      rw [Binding.label, ha']
      rfl
    | none =>
      have hnone : ∀ b' ∈ all, b'.name = b.name → b'.tableAlias = none := fun b' hb' hname =>
        List.findSome?_eq_none_iff.1 hfirst b' (List.mem_filter.2 ⟨hb', beq_iff_eq.2 hname⟩)
      rw [Option.getD_none, List.mem_map]
      refine exists_congr fun b' => and_congr_right fun hb' => ?_
      rw [Binding.label]
      cases ha' : b'.tableAlias with
      | none => simp
      | some a =>
        have hname : b'.name ≠ b.name := fun hname => by
          rw [hnone b' hb' hname] at ha'
          cases ha'
        simp [hname]

theorem resolved_ne_empty (all : List Binding) (b : Binding) (f : ColumnRef) :
    resolved all b f ≠ "" := by
  intro h
  have hlength := congrArg String.length h
  simp [resolved] at hlength

theorem render_resolved {v : View} (hqualify : v.qualify = true)
    (haliases : ∀ e, v.aliases.find? e = firstAlias all e) (b : Binding) (f : ColumnRef) :
    (b.scope.within f).render v = resolved all b f := by
  rw [Scope.within, resolved, ColumnRef.render, ColumnRef.qualifier?, if_pos hqualify]
  cases f.tableAlias with
  | some a => rfl
  | none =>
    cases f.entity with
    | some e => simp [Scope.columnRef, haliases, Binding.qualifier]
    | none =>
      cases ha : b.tableAlias <;>
        simp [Scope.columnRef, haliases, Binding.qualifier, Binding.scope, ha]

/-! ### Statements -/

theorem Traced.lasts (h : Traced c o calls q s chosen) (hrun : (q.run after).outcome = .ok q') :
    ∃ s' chosen', Traced c o (calls ++ after) q' s' chosen' ∧
      ∀ P, Block.Lasting P → s.Has P → s'.Has P := by
  refine run_induction (I := fun calls q => ∃ s' chosen', Traced c o calls q s' chosen' ∧
    ∀ P, Block.Lasting P → s.Has P → s'.Has P) calls ?_
    ⟨s, chosen, h, fun _ _ hs => hs⟩ hrun
  rintro calls call q p ⟨s', chosen', h', hlasts⟩ hcall
  exact ⟨_, _, h'.step hcall, fun P hP hs => h'.laid.lasts hP (hlasts P hP hs) call⟩

/-- The columns of a call are written as they are resolved among all tables of the query. Those
without a table are written under one of its tables just if there is one with the name of the
entity that they belong to at the call, or one whose alias is that name. -/
theorem columns_resolved (c : Compiler) (o : Opening) (before : List Call) (call : Call)
    (after : List Call) (q : Select) (hqualify : c.qualify = true)
    (hbuilt : (built c o (before ++ call :: after)).outcome = .ok q) (result : Entity) :
    let tables := bindings o (before ++ call :: after)
    let owner := subject o (before ++ [call])
    ∃ compiled, (q.compileAs result).outcome = .ok compiled ∧
      call.WrittenIn c compiled (resolved tables owner) [] ∧
      (owner.qualifier tables ∈ tables.map Binding.label ↔
        ∃ b ∈ tables, b.name = owner.name ∨ b.tableAlias = some owner.name) := by
  intro tables owner
  obtain ⟨-, hrun⟩ := built_eq_ok hbuilt
  obtain ⟨p, hbefore, hrest⟩ := run_append_eq_ok hrun
  obtain ⟨r, hcall, hafter⟩ := run_cons_eq_ok hrest
  obtain ⟨s, chosen, h⟩ := Traced.run (c := c) hbefore
  obtain ⟨s', chosen', h', hlasts⟩ := (h.step hcall).lasts hafter
  rw [← List.append_cons] at h'
  have howner : owner ∈ tables ∨ owner.tableAlias = none := by
    refine (subject_mem o (before ++ [call])).imp_left fun hmem => ?_
    rw [show tables = bindings o (before ++ [call] ++ after) by rw [← List.append_cons],
      bindings_append]
    exact List.mem_append_left _ hmem
  have hscope : r.scope = owner.scope := by
    rw [scope_of_apply hcall, scope_of_run hbefore, show owner = _ from subject_append ..]
    cases call.subject? <;> rfl
  refine ⟨_, h'.outcome_compileAs result, ?_, qualifier_mem_labels_iff howner⟩
  refine h.laid.writtenIn h.lists hcall
    (fun P hP hs => (hlasts P hP hs).supply h'.laid.headed hP.apart _) (fun f => ?_)
    (resolved_ne_empty _ _) fun f hf => ?_
  · rw [hscope]
    refine render_resolved hqualify (fun e => ?_) owner f
    rw [← h'.aliases, ← s'.supply_aliases (q.projection result)]
    rfl
  · obtain ⟨e, name, m, k, hm, -, hwritten⟩ := mapped?_eq_some hf
    refine hwritten _ _ _ _ ⟨m, hm, fun hasked => ?_⟩
    simp [ColumnRef.AnswersTo] at hasked

/-- A column behind a result that becomes a table of the query only later, and another one. -/
theorem columns_resolved_joined_later :
    let customer : Entity := ⟨"Customer", [⟨"Id", .int, false⟩, ⟨"Name", .string, true⟩]⟩
    let orders : Entity := ⟨"Orders", [⟨"CustomerId", .int, false⟩, ⟨"Name", .string, true⟩]⟩
    let condition : Expr := .equals (.col "Name") (.qualified "Customer" "Name")
    let later : List Call :=
      [.joinAs orders "o" (.equals (.col "CustomerId") (.qualified "Customer" "Id"))]
    ∃ q compiled,
      (built {} (.from customer) ([.forType orders] ++ .filter condition :: later)).outcome =
        .ok q ∧
      (q.compileAs orders).outcome = .ok compiled ∧
      Text.Contains compiled.sql "o.Name" ∧ Text.Contains compiled.sql "Customer.Name" ∧
      "o" ∈ (bindings (.from customer) ([.forType orders] ++ .filter condition :: later)).map
        Binding.label := by
  intro customer orders condition later
  obtain ⟨q, hq⟩ : ∃ q,
      (built {} (.from customer) ([.forType orders] ++ .filter condition :: later)).outcome =
        .ok q := ⟨_, rfl⟩
  obtain ⟨compiled, hcompiled, ⟨-, hmembers⟩, hlabel⟩ :=
    columns_resolved {} (.from customer) [.forType orders] (.filter condition) later q rfl hq orders
  have hown := hmembers { field := "Name" } List.mem_cons_self
  have hother := hmembers { field := "Name", entity := some "Customer" }
    (List.mem_cons_of_mem _ List.mem_cons_self)
  have hlabel := hlabel.2 ⟨⟨"Orders", some "o"⟩, by decide, .inl rfl⟩
  have hresolved : Text.dropLineBreaks (resolved
        (bindings (.from customer) ([.forType orders] ++ .filter condition :: later))
        (subject (.from customer) ([.forType orders] ++ [.filter condition]))
        { field := "Name" }) = "o.Name" ∧
      Text.dropLineBreaks (resolved
        (bindings (.from customer) ([.forType orders] ++ .filter condition :: later))
        (subject (.from customer) ([.forType orders] ++ [.filter condition]))
        { field := "Name", entity := some "Customer" }) = "Customer.Name" := by decide
  rw [hresolved.1] at hown
  rw [hresolved.2] at hother
  exact ⟨q, compiled, hq, hcompiled, hown, hother, hlabel⟩

/-- A member of the result that the first table has is written under the name of the result, which
is no table of the query. -/
theorem result_is_no_table :
    let customer : Entity := ⟨"Customer", [⟨"Id", .int, false⟩, ⟨"Name", .string, true⟩]⟩
    let orders : Entity := ⟨"Orders", [⟨"CustomerId", .int, false⟩, ⟨"ShipName", .string, true⟩]⟩
    let result : Entity := ⟨"CustomerOrder", [⟨"Name", .string, true⟩, ⟨"ShipName", .string, true⟩]⟩
    let calls : List Call :=
      [.join .inner orders (.equals (.col "CustomerId") (.qualified "Customer" "Id")),
        .forType result, .filter (.equals (.col "Name") (.constant (.string "x")))]
    ∃ q compiled, (built {} (.from customer) calls).outcome = .ok q ∧
      q.compile.outcome = .ok compiled ∧
      owner? (tables (.from customer) calls) "Name" = some ⟨"Customer", none⟩ ∧
      (bindings (.from customer) calls).map Binding.label = ["Customer", "Orders"] ∧
      compiled.sql = "select Customer.Name, Orders.ShipName FROM Customer " ++
        "JOIN Orders ON (Orders.CustomerId = Customer.Id) WHERE (CustomerOrder.Name = 'x')" := by
  refine ⟨_, _, rfl, rfl, by decide, by decide, ?_⟩
  decide +kernel

end SqlComposer.Select
