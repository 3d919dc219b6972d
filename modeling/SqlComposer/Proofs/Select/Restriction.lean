import SqlComposer.Proofs.Expr.Condition
import SqlComposer.Proofs.Outline.Tokens
import SqlComposer.Proofs.Select.Arranged
import SqlComposer.Proofs.Select.Tables

/-!
# What a restriction says

The predicates of a query without joins stand in one clause, one behind the other and without
brackets around what was there before. The clause says what the calls ask for as long as nothing is
added with `AND` behind an `OR`; otherwise it admits more.
-/
namespace SqlComposer

def Connective.joint : Connective → Joint
  | .and => .and
  | .or => .or

theorem Connective.tag_joint (k : Connective) : k.joint.tag = k.tag := by
  cases k <;> rfl

theorem Connective.around_joint (k : Connective) : Addition.around k.joint = (k.word, "") := by
  cases k <;> rfl

namespace Select

def Call.connective? : Call → Option Connective
  | .filter _ | .andFilter _ => some .and
  | .orFilter _ => some .or
  | _ => none

/-- The predicates of calls without joins, and what their columns belong to. -/
def tests (scope : Scope) : List Call → List (Connective × Phrase)
  | [] => []
  | .filter e :: calls | .andFilter e :: calls => (.and, ⟨scope, e⟩) :: tests scope calls
  | .orFilter e :: calls => (.or, ⟨scope, e⟩) :: tests scope calls
  | .forType result :: calls => tests { entity := some result.name } calls
  | _ :: calls => tests scope calls

def operands (ps : List (Connective × Phrase)) : List (Connective × Operand) :=
  ps.map fun p => (p.1, p.2.operand)

/-- The condition that calls ask for: every call takes what was built so far as a whole. -/
def wanted (scope : Scope) (calls : List Call) : Option Condition :=
  match tests scope calls with
  | [] => none
  | (_, first) :: rest => some (.built first.operand (operands rest))

def Predicate.ofTests (first : Phrase) (rest : List (Connective × Phrase)) : Predicate where
  tag := .whereClause
  condition := first
  additions := rest.map fun p => (p.1.joint, p.2)

def restrictionOf : List (Connective × Phrase) → Option Predicate
  | [] => none
  | (_, first) :: rest => some (.ofTests first rest)

theorem restrictionOf_append (ps : List (Connective × Phrase)) (k : Connective) (phrase : Phrase) :
    restrictionOf (ps ++ [(k, phrase)]) =
      some (match restrictionOf ps with
        | some r => r.extend k.joint phrase
        | none => { tag := .whereClause, condition := phrase }) := by
  cases ps with
  | nil => rfl
  | cons p ps => simp [restrictionOf, Predicate.ofTests, Predicate.extend]

structure Plan.Gathered (p : Plan) (before : List Call) (ps : List (Connective × Phrase)) : Prop where
  restriction : p.restriction = restrictionOf ps
  target : p.onRestriction = !ps.isEmpty
  opened : before.any Call.opensCondition = !ps.isEmpty

namespace Plan.Gathered

variable {p : Plan} {before calls : List Call} {call : Call} {ps : List (Connective × Phrase)}

theorem filter (h : p.Gathered before ps) (e : Expr) :
    (p.step (.filter e)).Gathered (before ++ [.filter e]) (ps ++ [(.and, ⟨p.scope, e⟩)]) where
  restriction := by
    rw [restrictionOf_append, ← h.restriction]
    rfl
  target := by simp [step, Plan.filter]
  opened := by simp [Call.opensCondition, Call.isFilter]

theorem extend (h : p.Gathered before ps) (k : Connective) (e : Expr)
    (hstep : p.step call = p.extend k.joint e)
    (hany : before.any Call.opensCondition = true) :
    (p.step call).Gathered (before ++ [call]) (ps ++ [(k, ⟨p.scope, e⟩)]) := by
  have hps : p.onRestriction = true := by rw [h.target, ← h.opened, hany]
  have hextend : p.extend k.joint e =
      { p with restriction := p.restriction.map (Predicate.extend k.joint ⟨p.scope, e⟩) } :=
    if_pos hps
  rw [hstep, hextend]
  refine ⟨?_, by simp [hps], by simp [hany]⟩
  have hsome : (restrictionOf ps).isSome = true := by
    cases ps with
    | nil => rw [h.opened] at hany; cases hany
    | cons => rfl
  obtain ⟨r, hr⟩ := Option.isSome_iff_exists.1 hsome
  simp only [restrictionOf_append, h.restriction, hr, Option.map_some]

theorem quiet (h : p.Gathered before ps) (hrestriction : (p.step call).restriction = p.restriction)
    (htarget : (p.step call).onRestriction = p.onRestriction)
    (hcall : call.opensCondition = false) : (p.step call).Gathered (before ++ [call]) (ps ++ []) where
  restriction := by rw [hrestriction, h.restriction, List.append_nil]
  target := by rw [htarget, h.target, List.append_nil]
  opened := by simp [h.opened, hcall]

theorem step (h : p.Gathered before ps) (hjoin : call.joinTag? = none) (hfits : call.fits before) :
    (p.step call).Gathered (before ++ [call]) (ps ++ tests p.scope [call]) := by
  cases call with
  | join | joinAs => cases hjoin
  | filter e => exact h.filter e
  | andFilter e => exact h.extend .and e rfl hfits
  | orFilter e => exact h.extend .or e rfl hfits
  | orderBy | thenBy | groupBy | map | mapAs | mapWith | ignore | forType => exact h.quiet rfl rfl rfl

theorem tests_cons (p : Plan) (hjoin : call.joinTag? = none) (calls : List Call) :
    tests p.scope (call :: calls) =
      tests p.scope [call] ++ tests (p.step call).scope calls := by
  have hextend (joint : Joint) (e : Expr) : (p.extend joint e).scope = p.scope := by
    rw [Plan.extend]
    split_ifs <;> rfl
  cases call with
  | join | joinAs => cases hjoin
  | andFilter | orFilter => simp [tests, Plan.step, hextend]
  | filter | orderBy | thenBy | groupBy | map | mapAs | mapWith | ignore | forType => rfl

theorem after (h : p.Gathered before ps) (hjoins : ∀ call ∈ calls, call.joinTag? = none)
    (hfits : fitsAll before calls) :
    (p.after calls).restriction = restrictionOf (ps ++ tests p.scope calls) := by
  -- one call after the other, with what was gathered before it in `ps`
  induction calls generalizing p before ps with
  | nil =>
    rw [tests, List.append_nil, ← h.restriction]
    rfl
  | cons call calls ih =>
    obtain ⟨hjoin, hjoins⟩ := List.forall_mem_cons.1 hjoins
    have hrest := ih (h.step hjoin hfits.1) hjoins hfits.2
    rwa [List.append_assoc, ← tests_cons p hjoin] at hrest

end Plan.Gathered

theorem restriction_after_opening (e : Entity) (tableAlias : Option String) {calls : List Call}
    (hjoins : ∀ call ∈ calls, call.joinTag? = none) (hplaced : WellPlaced calls) :
    ((Plan.opening e tableAlias).after calls).restriction =
      restrictionOf (tests { entity := some e.name, tableAlias } calls) := by
  have hstart : (Plan.opening e tableAlias).Gathered [] [] := ⟨rfl, rfl, rfl⟩
  refine hstart.after hjoins (fitsAll_iff.2 fun front call after hsplit => ?_)
  exact hplaced front call after hsplit

/-! ### The clause of a restriction -/

variable {c : Clause} {first : Phrase} {rest : List (Connective × Phrase)} {v : View}

theorem Phrase.atomsText_atoms (p : Phrase) :
    atomsText v p.atoms = p.operand.written v.dialect fun f => f.render v := by
  rw [atoms, Scope.atoms_eq, atomsText_row]
  rfl

theorem disjunction_additions {l : List Part} {read : Condition} (h : Disjunction l read)
    {as : List Addition}
    (has : as.map (fun a => (a.joint, a.atoms)) = rest.map fun p => (p.1.joint, p.2.atoms))
    (hrest : ∀ p ∈ rest, p.2.operand.isBracketed = true) :
    Disjunction (l ++ Part.flattenAll (as.map Addition.part))
      ((operands rest).foldl (fun c next => c.behind next.1 next.2) read) := by
  induction rest generalizing l read as with
  | nil =>
    rw [List.map_eq_nil_iff.1 has]
    simpa [operands, Part.flattenAll] using h
  | cons p rest ih =>
    obtain ⟨a, as, rfl, ha, has⟩ := List.map_eq_cons_iff.1 has
    obtain ⟨hjoint, hatoms⟩ := Prod.mk.inj ha
    obtain ⟨hp, hrest⟩ := List.forall_mem_cons.1 hrest
    have hconnective : a.part.IsConnective p.1 := ⟨rfl, by rw [← p.1.tag_joint, ← hjoint]; rfl⟩
    have hrow : Part.flattenAll a.part.children = Part.ofAtoms (a.key + 1) p.2.atoms := by
      rw [← hatoms]
      exact Part.flattenAll_ofAtoms ..
    have hbehind := ih (h.behind hconnective (hrow ▸ p.2.reads _) hp) has hrest
    simpa only [List.map_cons, Part.flattenAll, Part.flatten_eq, List.append_assoc,
      List.cons_append, operands, List.foldl_cons] using hbehind

theorem additions_of_gist (hgist : c.gist = (Predicate.ofTests first rest).gist) :
    c.additions.map (fun a => (a.joint, a.atoms)) =
      rest.map fun p => (p.1.joint, p.2.atoms) := by
  have h := congrArg Gist.additions hgist
  rwa [Predicate.gist, Predicate.ofTests, List.map_map] at h

theorem disjunction_iff (hgist : c.gist = (Predicate.ofTests first rest).gist)
    (hfirst : first.operand.isBracketed = true)
    (hrest : ∀ p ∈ rest, p.2.operand.isBracketed = true) (read : Condition) :
    Disjunction (Part.flattenAll (Block.clause c).part.children) read ↔
      read = .inRow first.operand (operands rest) := by
  have hatoms : c.atoms = first.atoms := congrArg Gist.atoms hgist
  have hrow : Part.flattenAll (Block.clause c).part.children =
      Part.ofAtoms (c.key + 1) first.atoms ++ Part.flattenAll (c.additions.map Addition.part) := by
    rw [← hatoms]
    exact (Part.flattenAll_append _ _).trans (by rw [Part.flattenAll_ofAtoms])
  have hbody : Disjunction (Part.ofAtoms (c.key + 1) first.atoms) (.test first.operand) :=
    .conjunction (.test (first.reads _) hfirst)
  have hread := disjunction_additions hbody (additions_of_gist hgist) hrest
  rw [hrow]
  exact ⟨fun h => h.unique hread, fun h => h ▸ hread⟩

theorem map_nestedClause_of_gist (hgist : c.gist = (Predicate.ofTests first rest).gist) :
    (c.additions.map fun a => nestedClause (a.written v)).map Text.dropLineBreaks =
      ((operands rest).map fun next => next.1.word ++
        next.2.written v.dialect fun f => f.render v).map Text.dropLineBreaks := by
  have hnested : (c.additions.map fun a => nestedClause (a.written v)) =
      (c.additions.map fun a => (a.joint, a.atoms)).map fun a =>
        (Addition.around a.1).1 ++ Text.dropLineBreaks (atomsText v a.2) ++
          (Addition.around a.1).2 := by
    rw [List.map_map]
    exact List.map_congr_left fun a _ => Addition.nestedClause_eq v a
  rw [hnested, additions_of_gist hgist, operands, List.map_map, List.map_map, List.map_map,
    List.map_map]
  refine List.map_congr_left fun p _ => ?_
  simp only [Function.comp_apply, Connective.around_joint, Phrase.atomsText_atoms,
    Text.dropLineBreaks_append, Text.dropLineBreaks_dropLineBreaks]
  exact String.append_empty

theorem written_of_gist (hgist : c.gist = (Predicate.ofTests first rest).gist) :
    c.written v = Text.dropLineBreaks ("WHERE " ++
      (Condition.inRow first.operand (operands rest)).written v.dialect fun f => f.render v) := by
  have htag : c.tag = .whereClause := congrArg Gist.tag hgist
  have hentity : c.entity = none := congrArg Gist.entity hgist
  have halias : c.tableAlias = none := congrArg Gist.tableAlias hgist
  have hatoms : c.atoms = first.atoms := congrArg Gist.atoms hgist
  rw [Clause.written, htag, hentity, halias, hatoms, Phrase.atomsText_atoms,
    Condition.written_inRow]
  simp only [clauseText, Text.dropLineBreaks_append, Text.dropLineBreaks_joinWith_empty,
    map_nestedClause_of_gist hgist, String.append_assoc]

end Select

theorem Orderly.partsOf_whereClause {o : Orderly} {s : Outline} (ho : o.WellTagged)
    (hs : s.blocks = o.blocks) :
    s.draft.partsOf .whereClause = o.restriction.toList.map fun c => (Block.clause c).part := by
  have hwhere : (s.draft.parts.filter fun p => p.tag.isJoin || p.tag == .whereClause).filter
      (fun p => p.tag == .whereClause) = s.draft.partsOf .whereClause := by
    rw [List.filter_filter, Tree.partsOf]
    refine List.filter_congr fun p _ => ?_
    by_cases hp : p.tag = .whereClause <;> simp [hp]
  have hjoins : (o.joins.map fun c => (Block.clause c).part).filter
      (fun p => p.tag == .whereClause) = [] := by
    refine List.filter_eq_nil_iff.2 fun p hp => ?_
    obtain ⟨c, hc, rfl⟩ := List.mem_map.1 hp
    have htag : (Block.clause c).part.tag.isJoin = true := ho.joins c hc
    intro h
    rw [beq_iff_eq.1 h] at htag
    cases htag
  have hrestriction : (o.restriction.toList.map fun c => (Block.clause c).part).filter
      (fun p => p.tag == .whereClause) = o.restriction.toList.map fun c => (Block.clause c).part := by
    refine List.filter_eq_self.2 fun p hp => ?_
    obtain ⟨c, hc, rfl⟩ := List.mem_map.1 hp
    exact beq_iff_eq.2 (ho.restriction c (Option.mem_toList.1 hc))
  rw [← hwhere, Outline.draft, hs, Orderly.filter_predicates ho, List.map_append,
    List.filter_append, hjoins, hrestriction, List.nil_append]

def Expr.isTest : Expr → Bool
  | .binary op _ _ => !op.isArithmetic
  | .convert inner => inner.isTest
  | _ => false

theorem Operand.isBracketed_ofExpr (scope : Scope) {e : Expr} (h : e.isTest = true) :
    (ofExpr scope e).isBracketed = true := by
  induction e with
  | binary op left right =>
    have harith : op.isArithmetic = false := by simpa [Expr.isTest] using h
    simp only [ofExpr, harith, Bool.false_eq_true, if_false]
    split_ifs <;> rfl
  | convert inner ih => exact ih h
  | member | constant | deferred | computed => cases h

namespace Select

def Call.predicate? : Call → Option Expr
  | .filter e | .andFilter e | .orFilter e => some e
  | _ => none

theorem isTest_of_mem_tests {calls : List Call}
    (h : ∀ call ∈ calls, ∀ e ∈ call.predicate?, e.isTest = true) {scope : Scope}
    {p : Connective × Phrase} (hp : p ∈ tests scope calls) : p.2.expr.isTest = true := by
  induction calls generalizing scope with
  | nil => cases hp
  | cons call calls ih =>
    obtain ⟨hcall, hcalls⟩ := List.forall_mem_cons.1 h
    cases call with
    | filter e | andFilter e | orFilter e =>
      obtain rfl | hp := List.mem_cons.1 hp
      · exact hcall e rfl
      · exact ih hcalls hp
    | _ => exact ih hcalls hp

theorem map_fst_tests (scope : Scope) (calls : List Call) :
    (tests scope calls).map Prod.fst = calls.filterMap Call.connective? := by
  induction calls generalizing scope with
  | nil => rfl
  | cons call calls ih =>
    cases call with
    | filter | andFilter | orFilter => simp [tests, Call.connective?, ih]
    | _ => exact ih _

theorem tests_ne_nil {scope : Scope} {calls : List Call} (h : calls.any Call.isFilter = true) :
    tests scope calls ≠ [] := by
  obtain ⟨call, hmem, hfilter⟩ := List.any_eq_true.1 h
  have hconnective : .and ∈ calls.filterMap Call.connective? := by
    refine List.mem_filterMap.2 ⟨call, hmem, ?_⟩
    cases call with
    | filter => rfl
    | _ => cases hfilter
  intro hnil
  rw [← map_fst_tests scope calls, hnil] at hconnective
  cases hconnective

theorem connective_of_tests_eq_cons {scope : Scope} {before calls : List Call}
    (hjoins : ∀ call ∈ calls, call.joinTag? = none)
    (hbefore : before.any Call.opensCondition = false) (hfits : fitsAll before calls)
    {first : Connective × Phrase} {rest : List (Connective × Phrase)}
    (h : tests scope calls = first :: rest) : first.1 = .and := by
  induction calls generalizing scope before with
  | nil => cases h
  | cons call calls ih =>
    obtain ⟨hjoin, hothers⟩ := List.forall_mem_cons.1 hjoins
    obtain ⟨hfit, hlater⟩ := hfits
    have hquiet (hcall : call.opensCondition = false) :
        (before ++ [call]).any Call.opensCondition = false := by
      simp [hcall, hbefore]
    cases call with
    | join | joinAs => cases hjoin
    | filter | andFilter =>
      obtain ⟨rfl, -⟩ := List.cons.inj h
      rfl
    | orFilter => exact absurd (hbefore.symm.trans hfit) Bool.false_ne_true
    | orderBy | thenBy | groupBy | map | mapAs | mapWith | ignore | forType =>
      exact ih hothers (hquiet rfl) hlater h

section

variable {c : Compiler} {o : Opening} {calls : List Call} {q : Select}

theorem exists_clause (hjoins : ∀ call ∈ calls, call.joinTag? = none) (hplaced : WellPlaced calls)
    (htests : ∀ call ∈ calls, ∀ e ∈ call.predicate?, e.isTest = true)
    (hbuilt : (built c o calls).outcome = .ok q) {k : Connective} {first : Phrase}
    {rest : List (Connective × Phrase)} (hall : tests o.binding.scope calls = (k, first) :: rest)
    (result : Entity) :
    ∃ compiled clause, (q.compileAs result).outcome = .ok compiled ∧
      compiled.tree.partsOf .whereClause = [clause] ∧
      (∀ read, Disjunction (Part.flattenAll clause.children) read ↔
        read = .inRow first.operand (operands rest)) ∧
      Text.Contains compiled.sql (Text.dropLineBreaks ("WHERE " ++
        (Condition.inRow first.operand (operands rest)).written c.dialect
          fun f => f.render (compiled.tree.view c.dialect c.qualify))) := by
  obtain ⟨s, ordered, h⟩ := Arranged.run hplaced (built_eq_ok hbuilt).2
  have hcompiler : q.compiler = c := run_compiler (built_eq_ok hbuilt).2
  have hrestriction := h.restriction
  rw [restriction_after_opening o.entity o.tableAlias hjoins hplaced] at hrestriction
  change _ = (restrictionOf (tests o.binding.scope calls)).map Predicate.gist at hrestriction
  rw [hall] at hrestriction
  obtain ⟨clause, hclause, hgist⟩ := Option.map_eq_some_iff.1 hrestriction
  obtain ⟨l, hl, hblocks⟩ := Orderly.supply_blocks h.blocks (q.projection result)
  have htagged : Orderly.WellTagged { ordered with columns := l } :=
    ⟨hl.trans h.tagged.columns, h.tagged.table, h.tagged.joins, h.tagged.restriction,
      h.tagged.grouping, h.tagged.ordering⟩
  have hparts : (s.supply (q.projection result)).draft.partsOf .whereClause =
      [(Block.clause clause).part] := by
    rw [Orderly.partsOf_whereClause htagged hblocks, hclause]
    rfl
  have hbracketed : ∀ p ∈ tests o.binding.scope calls, p.2.operand.isBracketed = true :=
    fun p hp => Operand.isBracketed_ofExpr p.2.scope (isTest_of_mem_tests htests hp)
  rw [hall] at hbracketed
  obtain ⟨hfirst, hrest⟩ := List.forall_mem_cons.1 hbracketed
  have hcompile : (q.compileAs result).outcome = .ok
      ⟨(s.supply (q.projection result)).sql c, (s.supply (q.projection result)).draft.toTree⟩ := by
    rw [h.laid.outcome_compileAs, hcompiler]
  have hhas : (s.supply (q.projection result)).Has (· = .clause clause) := by
    refine ⟨_, ?_, rfl⟩
    rw [hblocks]
    simp [Orderly.blocks, hclause]
  refine ⟨_, _, hcompile, hparts, disjunction_iff hgist hfirst hrest, ?_⟩
  refine hhas.contains_sql fun hb => ?_
  rw [hb, Block.written, written_of_gist hgist]
  exact .refl _

end

/-- The restriction of a query without joins is read in one way only, by the precedence of SQL, and
it is written so. It admits every row that the calls ask for. It is the condition that the calls
ask for iff nothing is added with `AND` behind an `OR`. -/
theorem restriction_read (c : Compiler) (o : Opening) (calls : List Call) (q : Select)
    (result : Entity) (hjoins : ∀ call ∈ calls, call.joinTag? = none) (hplaced : WellPlaced calls)
    (hfiltered : calls.any Call.isFilter = true)
    (htests : ∀ call ∈ calls, ∀ e ∈ call.predicate?, e.isTest = true)
    (hbuilt : (built c o calls).outcome = .ok q) :
    ∃ compiled clause asked printed, (q.compileAs result).outcome = .ok compiled ∧
      compiled.tree.partsOf .whereClause = [clause] ∧
      (∀ read, Disjunction (Part.flattenAll clause.children) read ↔ read = printed) ∧
      Text.Contains compiled.sql (Text.dropLineBreaks ("WHERE " ++ printed.written c.dialect
        fun f => f.render (compiled.tree.view c.dialect c.qualify))) ∧
      wanted o.binding.scope calls = some asked ∧
      (∀ holds, asked.Admits holds → printed.Admits holds) ∧
      (printed = asked ↔
        (calls.filterMap Call.connective?).Pairwise fun k k' => k = .or → k' = .or) := by
  obtain ⟨⟨k, first⟩, rest, hall⟩ := List.exists_cons_of_ne_nil (tests_ne_nil hfiltered)
  obtain ⟨compiled, clause, hcompiled, hclause, hread, htext⟩ :=
    exists_clause hjoins hplaced htests hbuilt hall result
  refine ⟨compiled, clause, .built first.operand (operands rest), _, hcompiled, hclause, hread,
    htext, by rw [wanted, hall], fun holds => Condition.admits_inRow _ _, ?_⟩
  have hwords := map_fst_tests o.binding.scope calls
  rw [hall, List.map_cons] at hwords
  have hfits : fitsAll [] calls := fitsAll_iff.2 hplaced
  have hk : k = .and := connective_of_tests_eq_cons hjoins rfl hfits hall
  have hrestwords : (operands rest).map Prod.fst = rest.map Prod.fst := by
    rw [operands, List.map_map]
    rfl
  rw [Condition.inRow_eq_built_iff, ← hwords, List.pairwise_cons, hrestwords, hk]
  have hand : Connective.and ≠ .or := by decide
  exact ⟨fun h => ⟨fun _ _ hor => absurd hor hand, h⟩, fun h => h.2⟩

def customer : Entity :=
  ⟨"Customer", [⟨"Id", .int, false⟩, ⟨"Name", .string, true⟩, ⟨"Email", .string, true⟩]⟩

def narrowed : List Call :=
  [.filter (.equals (.col "Id") (.constant (.int 1))),
    .orFilter (.equals (.col "Name") (.constant (.string "x"))),
    .filter (.equals (.col "Email") (.constant (.string "y")))]

theorem restriction_read_narrowed :
    ∃ q compiled clause asked printed, (built {} (.from customer) narrowed).outcome = .ok q ∧
      (q.compileAs customer).outcome = .ok compiled ∧
      compiled.tree.partsOf .whereClause = [clause] ∧
      (∀ read, Disjunction (Part.flattenAll clause.children) read ↔ read = printed) ∧
      wanted (Opening.from customer).binding.scope narrowed = some asked ∧ printed ≠ asked := by
  obtain ⟨q, hq⟩ : ∃ q, (built {} (.from customer) narrowed).outcome = .ok q := ⟨_, rfl⟩
  obtain ⟨compiled, clause, asked, printed, hcompiled, hclause, hread, -, hasked, -, hiff⟩ :=
    restriction_read {} (.from customer) narrowed q customer (by decide) (by decide) (by decide)
      (by decide) hq
  exact ⟨q, compiled, clause, asked, printed, hq, hcompiled, hclause, hread, hasked,
    fun h => absurd (hiff.1 h) (by decide)⟩

/-- A row that is admitted behind a filter that it does not pass. -/
theorem filter_admits_what_it_excludes :
    ∃ q compiled clause printed, (built {} (.from customer) narrowed).outcome = .ok q ∧
      (q.compileAs customer).outcome = .ok compiled ∧
      compiled.tree.partsOf .whereClause = [clause] ∧
      Disjunction (Part.flattenAll clause.children) printed ∧
      ∃ holds, printed.Admits holds ∧
        ¬holds (.ofExpr { entity := some "Customer" }
          (.equals (.col "Email") (.constant (.string "y")))) := by
  obtain ⟨q, hq⟩ : ∃ q, (built {} (.from customer) narrowed).outcome = .ok q := ⟨_, rfl⟩
  obtain ⟨compiled, clause, hcompiled, hclause, hread, -⟩ :=
    exists_clause (by decide) (by decide) (by decide) hq rfl customer
  refine ⟨q, compiled, clause, _, hq, hcompiled, hclause, (hread _).2 rfl,
    (· = .ofExpr { entity := some "Customer" } (.equals (.col "Id") (.constant (.int 1)))),
    .inl rfl, fun h => ?_⟩
  have hfields := congrArg (fun t => t.columns.map ColumnRef.field) h
  exact absurd hfields (by decide)

end Select

end SqlComposer
