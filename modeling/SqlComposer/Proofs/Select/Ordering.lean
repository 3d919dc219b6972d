import SqlComposer.Proofs.Select.Assembled
import SqlComposer.Proofs.Select.Tables

/-!
# Orderings

However the calls that order a query are mixed with others, the statement ends with one ordering,
which has the keys of these calls one behind the other, each in the direction that its call says.
-/
namespace SqlComposer

theorem Outline.sql_of_last {s : Outline} {front : List Block} {b : Block}
    (hblocks : s.blocks = front ++ [b]) (c : Compiler) :
    s.sql c = Text.appendFragment (Compiler.joinPieces (front.map (Block.piece (s.view c))))
      (Text.dropLineBreaks (b.written (s.view c))) := by
  rw [Outline.sql, hblocks, List.map_append, Compiler.joinPieces, List.foldl_append,
    ← Compiler.joinPieces, List.map_singleton, List.foldl_cons, List.foldl_nil]
  rfl

namespace Select

def Direction.word : Direction → String
  | .ascending => "ASC"
  | .descending => "DESC"

def Call.sortKey? (scope : Scope) : Call → Option (Direction × Phrase)
  | .orderBy d e | .thenBy d e => some (d, ⟨scope, e⟩)
  | _ => none

def sortKeys (p : Plan) : List Call → List (Direction × Phrase)
  | [] => []
  | call :: calls => (call.sortKey? p.scope).toList ++ sortKeys (p.step call) calls

def Phrase.written (v : View) (p : Phrase) : String :=
  p.expr.written v.dialect fun f => (p.scope.within f).render v

def sortText (v : View) (key : Direction × Phrase) : String :=
  key.2.written v ++ " " ++ key.1.word

/-- The clause that orders by the keys: the first one starts it, and the others go on with it. -/
def sorting? : List (Direction × Phrase) → Option Predicate
  | [] => none
  | (d, p) :: keys =>
    some { tag := d.tag, condition := p, additions := keys.map fun key => (key.1.joint, key.2) }

variable {x : Clauses} {q : Select} {s : Outline} {calls : List Call} {call : Call} {v : View}

theorem sortKeys_append (p : Plan) (calls : List Call) (call : Call) :
    sortKeys p (calls ++ [call]) =
      sortKeys p calls ++ (call.sortKey? (p.after calls).scope).toList := by
  induction calls generalizing p with
  | nil => exact List.append_nil _
  | cons first calls ih =>
    rw [List.cons_append, sortKeys, sortKeys, ih, List.append_assoc]
    rfl

theorem sorting?_append (keys : List (Direction × Phrase)) (d : Direction) (p : Phrase) :
    sorting? (keys ++ [(d, p)]) = some (match sorting? keys with
      | some o => o.extend d.joint p
      | none => { tag := d.tag, condition := p }) := by
  cases keys with
  | nil => rfl
  | cons first keys => simp [sorting?, Predicate.extend]

theorem ordering_eq_sorting? (e : Entity) (tableAlias : Option String)
    (hplaced : WellPlaced calls) :
    ((Clauses.opening e tableAlias).after calls).ordering =
      sorting? (sortKeys (.opening e tableAlias) calls) := by
  induction calls using List.reverseRecOn with
  | nil => rfl
  | append_singleton calls call ih =>
    obtain ⟨hcalls, hfits⟩ := hplaced.of_append
    have horder (d : Direction) (field : Expr) :
        (((Clauses.opening e tableAlias).after calls).orderBy d field).ordering =
          sorting? (sortKeys (.opening e tableAlias) calls ++
            [(d, ⟨((Plan.opening e tableAlias).after calls).scope, field⟩)]) := by
      rw [sorting?_append, ← ih hcalls, ← Clauses.scope_after]
      rfl
    have hchain (joint : Joint) (e' : Expr) :
        (((Clauses.opening e tableAlias).after calls).chain joint e').ordering =
          ((Clauses.opening e tableAlias).after calls).ordering := by
      rw [Clauses.chain]
      split_ifs <;> rfl
    have hnil := congrArg sorting?
      (List.append_nil (sortKeys (.opening e tableAlias) calls)).symm
    have hkeep := (ih hcalls).trans hnil
    rw [Clauses.after_append, sortKeys_append]
    cases call with
    | orderBy d field => exact horder d field
    | thenBy d field =>
      have htakes : ((Clauses.opening e tableAlias).after calls).ordering.isSome = true :=
        (Clauses.takes_after e tableAlias calls (.thenBy d field)).2 hfits
      rw [Clauses.step, Clauses.thenBy, if_pos htakes]
      exact horder d field
    | andFilter | orFilter => exact (hchain _ _).trans hkeep
    | _ => exact hkeep

/-! ### The text -/

theorem written_phrase (v : View) (p : Phrase) : atomsText v p.atoms = p.written v :=
  Scope.atomsText_atoms p.scope p.expr

theorem clauseText_direction (v : View) (d : Direction) (p : Phrase) :
    clauseText d.tag "" (p.written v) = "ORDER BY " ++ sortText v (d, p) := by
  have hclause : clauseText d.tag "" (p.written v) =
      "ORDER BY " ++ p.written v ++ (" " ++ d.word) := by cases d <;> rfl
  rw [hclause, sortText, String.append_assoc, String.append_assoc]

theorem clauseText_joint (v : View) (d : Direction) (p : Phrase) :
    clauseText d.joint.tag "" (p.written v) = ", " ++ sortText v (d, p) := by
  have hclause : clauseText d.joint.tag "" (p.written v) =
      ", " ++ p.written v ++ (" " ++ d.word) := by cases d <;> rfl
  rw [hclause, sortText, String.append_assoc, String.append_assoc]

theorem nestedClause_comma (s : String) :
    nestedClause (Text.dropLineBreaks (", " ++ s)) = Text.dropLineBreaks (", " ++ s) := by
  have hcomma : (Text.dropLineBreaks (", " ++ s)).toList =
      ',' :: ' ' :: (Text.dropLineBreaks s).toList := by
    rw [Text.dropLineBreaks_append, String.toList_append]
    rfl
  have hne : Text.dropLineBreaks (", " ++ s) ≠ "" := by
    intro h
    rw [h] at hcomma
    cases hcomma
  rw [nestedClause, if_neg hne, hcomma]
  rfl

theorem written_addition (v : View) (d : Direction) (p : Phrase) :
    nestedClause (Text.dropLineBreaks (clauseText d.joint.tag "" (atomsText v p.atoms))) =
      Text.dropLineBreaks (", " ++ sortText v (d, p)) := by
  rw [written_phrase, clauseText_joint, nestedClause_comma]

theorem written_sorting {keys : List (Direction × Phrase)} {y : Predicate} {c : Clause}
    (hkeys : sorting? keys = some y) (hc : c.gist = y.gist) (v : View) :
    c.written v =
      Text.dropLineBreaks ("ORDER BY " ++ Text.joinWith ", " (keys.map (sortText v))) := by
  cases keys with
  | nil => cases hkeys
  | cons first keys =>
    obtain ⟨d, p⟩ := first
    cases hkeys
    simp only [Clause.gist, Predicate.gist, Gist.mk.injEq, List.map_map] at hc
    obtain ⟨htag, hentity, halias, hatoms, hadditions⟩ := hc
    have hnested : (c.additions.map fun a => nestedClause (a.written v)) =
        keys.map fun key => Text.dropLineBreaks (", " ++ sortText v key) := by
      have hpairs : (c.additions.map fun a => nestedClause (a.written v)) =
          (c.additions.map fun a => (a.joint, a.atoms)).map fun a =>
            nestedClause (Text.dropLineBreaks (clauseText a.1.tag "" (atomsText v a.2))) := by
        simp only [List.map_map, Function.comp_def, Addition.written]
      rw [hpairs, hadditions, List.map_map]
      refine List.map_congr_left ?_
      rintro ⟨d', p'⟩ -
      simp only [Function.comp_apply, written_addition]
    rw [Clause.written, htag, hentity, halias, hatoms, hnested, written_phrase, sourceText,
      clauseText_direction, List.map_cons, Text.joinWith_cons_eq]
    simp only [Text.dropLineBreaks_append, Text.dropLineBreaks_joinWith_empty, List.map_map,
      Function.comp_def, Text.dropLineBreaks_dropLineBreaks, String.append_assoc]

/-! ### The place -/

theorem JoinKind.isOrder_tag (k : JoinKind) : k.tag.isOrder = false := by
  cases k <;> rfl

theorem exists_clauseTags (hordered : (calls.any fun call => call.orderTag?.isSome) = true) :
    ∃ (tags : List Tag) (tag : Tag), clauseTags calls = tags ++ [tag] ∧
      ∀ t ∈ tags, t.isOrder = false := by
  obtain ⟨tag, htag⟩ : ∃ tag, calls.findSome? Call.orderTag? = some tag := by
    rw [← Option.isSome_iff_exists, List.findSome?_isSome_iff]
    obtain ⟨call, hcall, htag⟩ := List.any_eq_true.1 hordered
    exact ⟨call, hcall, htag⟩
  refine ⟨_, tag, by rw [clauseTags, htag]; rfl, fun t ht => ?_⟩
  obtain ht | ht := List.mem_append.1 ht
  · obtain ht | ht := List.mem_append.1 ht
    · obtain ⟨call, -, hcall⟩ := List.mem_filterMap.1 ht
      cases call with
      | join kind => exact Option.some.inj hcall ▸ kind.isOrder_tag
      | joinAs => exact Option.some.inj hcall ▸ rfl
      | _ => cases hcall
    · split_ifs at ht
      · exact List.mem_singleton.1 ht ▸ rfl
      · cases ht
  · split_ifs at ht
    · exact List.mem_singleton.1 ht ▸ rfl
    · cases ht

theorem isOrder_of_startsOrder {t : Tag} (ht : t.startsOrder = true) : t.isOrder = true := by
  obtain rfl | rfl := Outline.startsOrder_iff.1 ht <;> rfl

theorem exists_ordering {keys : List (Direction × Phrase)} (h : Assembled x q s)
    (hordering : x.ordering = sorting? keys) (hkeys : keys ≠ []) {tags : List Tag} {tag : Tag}
    (htags : q.draft.parts.map Part.tag = tags ++ [tag]) (hothers : ∀ t ∈ tags, t.isOrder = false)
    (fields : List ColumnRef) :
    ∃ front c, (s.supply fields).blocks = front ++ [Block.clause c] ∧
      (∀ b ∈ front, b.tag.isOrder = false) ∧ c.tag.startsOrder = true ∧
      ∀ v, c.written v =
        Text.dropLineBreaks ("ORDER BY " ++ Text.joinWith ", " (keys.map (sortText v))) := by
  obtain ⟨y, hy⟩ : ∃ y, sorting? keys = some y := by
    cases keys with
    | nil => exact absurd rfl hkeys
    | cons => exact ⟨_, rfl⟩
  have hheld := h.clauses .ordering
  rw [Clauses.of, hordering, hy] at hheld
  obtain ⟨c, hc, hgist⟩ := hheld.exists_eq
  have hpicked := Outline.picked_supply h.laid.headed ClauseKind.ordering.not_has_apart.1 fields
  rw [hc] at hpicked
  rw [h.laid.draft_eq, Outline.draft, List.map_map] at htags
  have hblocks : (s.supply fields).blocks.map Block.tag = tags ++ [tag] :=
    (Outline.supply_tags h.laid.headed fields).trans
      ((List.map_congr_left fun b _ => b.part_tag.symm).trans htags)
  obtain ⟨front, last, hsplit, hfront, hlast⟩ := List.map_eq_append_iff.1 hblocks
  obtain ⟨b, rfl, hb⟩ := List.map_eq_singleton_iff.1 hlast
  have hfronts : ∀ b ∈ front, b.tag.isOrder = false := fun b hb =>
    hothers _ (hfront ▸ List.mem_map_of_mem hb)
  obtain ⟨hmem, hstarts⟩ := Outline.last_mem_picked (hpicked.trans (List.nil_append _).symm)
  obtain hmem | hmem := List.mem_append.1 (hsplit ▸ hmem)
  · have horder := hfronts _ hmem
    rw [isOrder_of_startsOrder hstarts] at horder
    cases horder
  · rw [← List.mem_singleton.1 hmem] at hsplit
    exact ⟨front, c, hsplit, hfronts, hstarts, fun v => written_sorting hy hgist v⟩

theorem sortKeys_ne_nil (p : Plan)
    (hordered : (calls.any fun call => call.orderTag?.isSome) = true) : sortKeys p calls ≠ [] := by
  induction calls generalizing p with
  | nil => cases hordered
  | cons call calls ih =>
    rw [List.any_cons, Bool.or_eq_true] at hordered
    rw [sortKeys, Ne, List.append_eq_nil_iff]
    rintro ⟨hcall, hcalls⟩
    obtain htag | hrest := hordered
    · cases call with
      | orderBy => cases hcall
      | _ => cases htag
    · exact ih (p.step call) hrest hcalls

/-- A statement whose calls order by some keys ends with one ordering by all of them, and no other
part of it is an ordering. -/
theorem statement_ends_with_ordering (c : Compiler) (o : Opening) (calls : List Call) (q : Select)
    (result : Entity) (hplaced : WellPlaced calls)
    (hordered : (calls.any fun call => call.orderTag?.isSome) = true)
    (hbuilt : (built c o calls).outcome = .ok q) :
    ∃ compiled front last pieces, (q.compileAs result).outcome = .ok compiled ∧
      compiled.tree.parts = front ++ [last] ∧ (∀ p ∈ front, p.tag.isOrder = false) ∧
      last.tag.startsOrder = true ∧
      (Part.renderAll (compiled.tree.view c.dialect c.qualify) front).outcome = .ok pieces ∧
      compiled.sql = Text.appendFragment (Compiler.joinPieces pieces)
        (Text.dropLineBreaks ("ORDER BY " ++ Text.joinWith ", "
          ((sortKeys (.opening o.entity o.tableAlias) calls).map
            (sortText (compiled.tree.view c.dialect c.qualify))))) := by
  have hrun := (built_eq_ok hbuilt).2
  obtain ⟨s, h⟩ := (Assembled.opened c o.entity o.tableAlias).run hrun
  obtain ⟨_, _, harranged⟩ := Arranged.run hplaced hrun
  obtain ⟨tags, tag, htags, hothers⟩ := exists_clauseTags hordered
  have hparts : q.draft.parts.map Part.tag = (.select :: .fromClause :: tags) ++ [tag] := by
    rw [harranged.tags_eq, htags]
    rfl
  have hfirst : ∀ t ∈ Tag.select :: .fromClause :: tags, t.isOrder = false :=
    List.forall_mem_cons.2 ⟨rfl, List.forall_mem_cons.2 ⟨rfl, hothers⟩⟩
  obtain ⟨front, clause, hblocks, hfront, hstarts, hwritten⟩ := exists_ordering h
    (ordering_eq_sorting? o.entity o.tableAlias hplaced) (sortKeys_ne_nil _ hordered) hparts hfirst
    (q.projection result)
  have hcompiler : q.compiler = c := run_compiler hrun
  have hcompiled := h.laid.outcome_compileAs result
  rw [hcompiler] at hcompiled
  let t := s.supply (q.projection result)
  refine ⟨_, front.map Block.part, (Block.clause clause).part, front.map (Block.piece (t.view c)),
    hcompiled, ?_, ?_, hstarts, ?_, ?_⟩
  · exact (congrArg (List.map Block.part) hblocks).trans (List.map_append ..)
  · intro p hp
    obtain ⟨b, hb, rfl⟩ := List.mem_map.1 hp
    rw [Block.part_tag]
    exact hfront b hb
  · exact Part.outcome_renderAll_map Part.outcome_render_block front
  · exact (Outline.sql_of_last hblocks c).trans
      (congrArg (Text.appendFragment _) ((congrArg Text.dropLineBreaks (hwritten _)).trans
        (Text.dropLineBreaks_dropLineBreaks _)))

/-- Keys of two tables, with other calls between them. -/
theorem statement_ends_with_ordering_mixed :
    let customer : Entity := ⟨"Customer", [⟨"Id", .int, false⟩, ⟨"Name", .string, true⟩]⟩
    let orders : Entity := ⟨"Orders", [⟨"CustomerId", .int, false⟩]⟩
    let calls : List Call :=
      [.orderBy .descending (.col "Name"), .filter (.col "Open"),
        .joinAs orders "o" (.equals (.col "CustomerId") (.qualified "Customer" "Id")),
        .orFilter (.col "Late"), .orderBy .ascending (.col "Paid"), .groupBy (.col "CustomerId"),
        .map (.col "CustomerId"), .thenBy .descending (.qualified "Customer" "Id")]
    let joined : Scope := { entity := some "Orders", tableAlias := some "o" }
    let keys : List (Direction × Phrase) :=
      [(.descending, ⟨{ entity := some "Customer" }, .col "Name"⟩),
        (.ascending, ⟨joined, .col "Paid"⟩), (.descending, ⟨joined, .qualified "Customer" "Id"⟩)]
    ∃ q compiled front last pieces, WellPlaced calls ∧
      (calls.any fun call => call.orderTag?.isSome) = true ∧
      (built {} (.from customer) calls).outcome = .ok q ∧
      (q.compileAs customer).outcome = .ok compiled ∧
      compiled.tree.parts = front ++ [last] ∧ (∀ p ∈ front, p.tag.isOrder = false) ∧
      last.tag.startsOrder = true ∧
      (Part.renderAll (compiled.tree.view .sqlite true) front).outcome = .ok pieces ∧
      compiled.sql = Text.appendFragment (Compiler.joinPieces pieces)
        (Text.dropLineBreaks ("ORDER BY " ++ Text.joinWith ", "
          (keys.map (sortText (compiled.tree.view .sqlite true))))) := by
  intro customer orders calls joined keys
  have hplaced : WellPlaced calls := by decide
  have hordered : (calls.any fun call => call.orderTag?.isSome) = true := by decide
  obtain ⟨q, hq⟩ : ∃ q, (built {} (.from customer) calls).outcome = .ok q := ⟨_, rfl⟩
  obtain ⟨compiled, front, last, pieces, hcompiled⟩ :=
    statement_ends_with_ordering {} (.from customer) calls q customer hplaced hordered hq
  exact ⟨q, compiled, front, last, pieces, hplaced, hordered, hq, hcompiled⟩

end Select

end SqlComposer
