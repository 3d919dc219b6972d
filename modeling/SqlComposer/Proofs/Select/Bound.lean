import SqlComposer.Proofs.Outline.Bound
import SqlComposer.Proofs.Select.Clean

/-!
# Strings bound by a query

The outline of a query binds the strings of its calls, and those alone.
-/
namespace SqlComposer.Select

variable {q q' : Select} {s : Outline} {bound : List String} {call : Call}

def Call.strings : Call → List String
  | .join _ _ on | .joinAs _ _ on => on.strings
  | .filter e | .andFilter e | .orFilter e | .orderBy _ e | .thenBy _ e | .groupBy e | .map e =>
    e.strings
  | .mapAs source _ | .mapWith source _ _ => source.strings
  | .ignore _ | .forType _ => []

theorem binds_opening (e : Entity) (tableAlias : Option String) :
    (opening e tableAlias).Binds [] := by
  apply Outline.Binds.setAlias
  constructor
  · intro b hb
    obtain rfl | rfl := List.mem_pair.1 hb
    · exact fun e he => nomatch he
    · exact fun _ => rfl
  · exact .refl []

theorem Laid.isClause (h : Laid q s) {b : Block} (hb : b ∈ s.blocks)
    (hkey : some b.key = q.predicateClause) : b.isClause = true := by
  obtain ⟨b', hb', hclause, hkey'⟩ := h.target b.key hkey.symm
  have hmem := b'.key_mem_keys
  rw [hkey'] at hmem
  rwa [h.keyed.block_eq hb hb' b.key_mem_keys hmem]

theorem Laid.binds_layOut (h : Laid q s) (hs : s.Binds bound)
    (hcall : (call.apply q).outcome = .ok q') : (call.layOut q s).Binds (bound ++ call.strings) := by
  have hkey : ∀ b ∈ s.blocks, (some b.key == q.predicateClause) = true → b.isClause = true :=
    fun b hb hkey => h.isClause hb (beq_iff_eq.1 hkey)
  cases call with
  | join kind joined on =>
    rw [Call.strings, ← Scope.rowStrings_atoms]
    exact hs.join kind.frame?_tag (by cases kind <;> decide) _ _ _
  | joinAs joined tableAlias on =>
    rw [Call.strings, ← Scope.rowStrings_atoms]
    exact hs.join rfl (by decide) _ _ _
  | filter predicate =>
    rw [Call.strings, ← q.scope.rowStrings_atoms]
    exact hs.restrict _ _
  | andFilter predicate | orFilter predicate =>
    rw [Call.strings, ← q.scope.rowStrings_atoms]
    exact hs.nest hkey _ _
  | orderBy direction field =>
    rw [Call.strings, ← q.scope.rowStrings_atoms]
    exact hs.order _ (by cases direction <;> decide) _ _
  | thenBy direction field =>
    rw [Call.strings, ← q.scope.rowStrings_atoms]
    exact hs.nest (fun b _ => Block.isClause_of_startsOrder) _ _
  | groupBy field =>
    obtain ⟨f, hf, -⟩ := Rendering.outcome_bind_eq_ok hcall
    have hfield := member_eq_ok hf
    rw [Call.strings, Scope.field?_strings hfield, List.append_nil, Call.layOut, hfield]
    exact hs.openGrouping.enter_column _ f
  | map source =>
    obtain ⟨f, hf, -⟩ := mapped_eq_ok (.inl rfl) hcall
    rw [Call.strings, Scope.field?_strings hf, List.append_nil, Call.layOut_mapped hf]
    exact hs.enter_column _ f
  | mapAs source name =>
    obtain ⟨f, hf, -⟩ := mapped_eq_ok (.inr (.inl ⟨name, rfl⟩)) hcall
    obtain ⟨r, hr, -⟩ := Option.map_eq_some_iff.1 hf
    rw [Call.strings, Scope.field?_strings hr, List.append_nil, Call.layOut_mapped hf]
    exact hs.enter_column _ f
  | mapWith source name converter =>
    obtain ⟨f, hf, -⟩ := mapped_eq_ok (.inr (.inr ⟨name, converter, rfl⟩)) hcall
    obtain ⟨r, hr, -⟩ := Option.map_eq_some_iff.1 hf
    rw [Call.strings, Scope.field?_strings hr, List.append_nil, Call.layOut_mapped hf]
    exact hs.enter_column _ f
  | ignore member =>
    rw [Call.strings, List.append_nil]
    exact hs
  | forType result =>
    rw [Call.strings, List.append_nil]
    exact (hs.supply _).closeSelect

theorem Laid.exists_binds (h : Laid q s) (hs : s.Binds bound) {calls : List Call}
    (hrun : (q.run calls).outcome = .ok q') :
    ∃ s', Laid q' s' ∧ s'.Binds (bound ++ calls.flatMap Call.strings) ∧
      (q.Clean → s.Clean → (∀ call ∈ calls, call.Clean) → q'.Clean ∧ s'.Clean) := by
  induction calls generalizing q s bound with
  | nil =>
    cases hrun
    refine ⟨s, h, ?_, fun hq hclean _ => ⟨hq, hclean⟩⟩
    rwa [List.flatMap_nil, List.append_nil]
  | cons call calls ih =>
    obtain ⟨p, hcall, hrest⟩ := run_cons_eq_ok hrun
    obtain ⟨s', hlaid, hbinds, hclean⟩ := ih (h.step hcall) (h.binds_layOut hs hcall) hrest
    rw [List.append_assoc, ← List.flatMap_cons] at hbinds
    refine ⟨s', hlaid, hbinds, fun hq hs hcalls => ?_⟩
    have hfirst := hcalls call List.mem_cons_self
    exact hclean (hq.apply hfirst hcall) (hq.layOut hs hfirst) fun call' hmem =>
      hcalls call' (List.mem_cons_of_mem _ hmem)

end SqlComposer.Select
