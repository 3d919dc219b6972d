import SqlComposer.Proofs.Expr.Row
import SqlComposer.Proofs.Statement.Drawn
import SqlComposer.Proofs.Text.Joined

/-!
# Restrictions of updates and deletions

The first filter makes a clause behind everything else, and the later ones go on inside it with
`AND`. Assignments go to the list in front of it, whenever they come.
-/
namespace SqlComposer

/-! ### The clause -/

inductive Restriction : List Block → List (List Atom) → Prop where
  | none : Restriction [] []
  | clause (c : Clause) {rest : List (List Atom)} :
      c.tag = .whereClause → c.entity = none → c.tableAlias = none →
      c.additions.map (fun a => (a.joint, a.atoms)) = rest.map (Joint.and, ·) →
      Restriction [.clause c] (c.atoms :: rest)

namespace Restriction

variable {s : Outline} {front back : List Block} {rows : List (List Atom)}

theorem tag_eq (h : Restriction back rows) : ∀ b ∈ back, b.tag = .whereClause := by
  cases h with
  | none => exact List.forall_mem_nil _
  | clause c htag =>
    intro b hb
    rw [List.mem_singleton.1 hb]
    exact htag

theorem restrict (h : Restriction back rows) (hblocks : s.blocks = front ++ back)
    (hfront : ∀ b ∈ front, b.tag ≠ .whereClause) (atoms : List Atom) :
    ∃ back', (s.restrict (fun _ => false) atoms).blocks = front ++ back' ∧
      Restriction back' (rows ++ [atoms]) := by
  have hnone : (front.any fun b => b.tag == .whereClause) = false := by
    rw [List.any_eq_false]
    exact fun b hb => by simpa using hfront b hb
  cases h with
  | none =>
    have hany : (s.blocks.any fun b => b.tag == .whereClause) = false := by
      rw [hblocks, List.append_nil, hnone]
    refine ⟨[.clause { key := s.nextKey, tag := .whereClause, atoms }], ?_, ?_⟩
    · rw [Outline.restrict, if_neg (by rw [hany]; exact Bool.false_ne_true), ← List.append_nil front,
        ← hblocks]
      exact insertAhead_of_none fun _ _ => rfl
    · exact .clause { key := s.nextKey, tag := .whereClause, atoms } rfl rfl rfl rfl
  | @clause c rest htag hentity halias hadditions =>
    have hwhere : ((Block.clause c).tag == Tag.whereClause) = true := beq_iff_eq.2 htag
    have hany : (s.blocks.any fun b => b.tag == .whereClause) = true := by
      rw [hblocks, List.any_append, List.any_cons, hwhere, Bool.true_or, Bool.or_true]
    refine ⟨[.clause (c.nest ⟨s.nextKey, .and, atoms⟩)], ?_, ?_⟩
    · rw [Outline.restrict, if_pos hany, Outline.nest, if_pos hany, hblocks]
      exact modifyLast_append_cons hwhere (List.forall_mem_nil _)
    · have hadded : (c.nest ⟨s.nextKey, .and, atoms⟩).additions.map (fun a => (a.joint, a.atoms)) =
          (rest ++ [atoms]).map (Joint.and, ·) := by
        rw [Clause.nest, List.map_append, List.map_append, hadditions, List.map_singleton,
          List.map_singleton]
      exact .clause (c.nest ⟨s.nextKey, .and, atoms⟩) htag hentity halias hadded

end Restriction

theorem Clause.written_restriction {c : Clause} {rest : List (List Atom)}
    (htag : c.tag = .whereClause)
    (hadditions : c.additions.map (fun a => (a.joint, a.atoms)) = rest.map (Joint.and, ·)) (v : View) :
    c.written v = "WHERE " ++ Text.joinWith " AND "
      ((c.atoms :: rest).map fun l => Text.dropLineBreaks (atomsText v l)) := by
  have hnested : (c.additions.map fun a => nestedClause (a.written v)) =
      (rest.map fun l => Text.dropLineBreaks (atomsText v l)).map (" AND " ++ ·) := by
    have hpairs : (c.additions.map fun a => nestedClause (a.written v)) =
        (c.additions.map fun a => (a.joint, a.atoms)).map fun a =>
          (Addition.around a.1).1 ++ Text.dropLineBreaks (atomsText v a.2) ++
            (Addition.around a.1).2 := by
      rw [List.map_map]
      exact List.map_congr_left fun a _ => Addition.nestedClause_eq v a
    rw [hpairs, hadditions, List.map_map, List.map_map]
    exact List.map_congr_left fun l _ => String.append_empty
  have hdrop (s t : String) (hs : Text.dropLineBreaks s = s) :
      Text.dropLineBreaks (s ++ Text.dropLineBreaks t) = s ++ Text.dropLineBreaks t := by
    rw [Text.dropLineBreaks_append, hs, Text.dropLineBreaks_dropLineBreaks]
  have hdropped : ((rest.map fun l => Text.dropLineBreaks (atomsText v l)).map (" AND " ++ ·)).map
      Text.dropLineBreaks =
        (rest.map fun l => Text.dropLineBreaks (atomsText v l)).map (" AND " ++ ·) := by
    rw [List.map_map, List.map_map, List.map_map]
    exact List.map_congr_left fun l _ => hdrop " AND " _ (by decide)
  rw [written, hnested, htag, clauseText, Text.dropLineBreaks_append, Text.dropLineBreaks_append,
    Text.dropLineBreaks_joinWith_empty, hdropped, List.map_cons, Text.joinWith_cons_eq,
    String.append_assoc]
  rfl

/-! ### Reading the clause -/

theorem TestRow.additions {scope : Scope} {l : List Part} {first : Operand}
    {before : List (Connective × Operand)} (h : TestRow l first before) {as : List Addition}
    {rest : List Expr}
    (has : as.map (fun a => (a.joint, a.atoms)) =
      (rest.map fun p => (scope.atoms p).value).map (Joint.and, ·))
    (hrest : ∀ p ∈ rest, p.isBinary = true) :
    TestRow (l ++ Part.flattenAll (as.map Addition.part)) first
      (before ++ rest.map fun p => (.and, .ofExpr scope p)) := by
  induction rest generalizing l before as with
  | nil =>
    rw [List.map_eq_nil_iff.1 has]
    simpa [Part.flattenAll] using h
  | cons p rest ih =>
    obtain ⟨a, as, rfl, ha, has⟩ := List.map_eq_cons_iff.1 has
    obtain ⟨hjoint, hatoms⟩ := Prod.mk.inj ha
    obtain ⟨hp, hrest⟩ := List.forall_mem_cons.1 hrest
    have hand : a.part.IsConnective .and := ⟨rfl, by rw [Addition.part_tag, hjoint]; rfl⟩
    have hrow : Part.flattenAll a.part.children = Part.ofAtoms (a.key + 1) (scope.atoms p).value := by
      rw [show (scope.atoms p).value = a.atoms from hatoms.symm]
      exact Part.flattenAll_ofAtoms (a.key + 1) a.atoms
    have hnext := h.behind hand (hrow ▸ Reads.atoms scope p (a.key + 1))
      (Operand.isWhole_ofExpr scope hp)
    have hall := ih hnext has hrest
    simpa only [List.map_cons, Part.flattenAll, Part.flatten_eq, List.append_assoc,
      List.cons_append, List.nil_append] using hall

theorem Clause.testRow {c : Clause} {scope : Scope} {p : Expr} {rest : List Expr}
    (hatoms : c.atoms = (scope.atoms p).value)
    (hadditions : c.additions.map (fun a => (a.joint, a.atoms)) =
      (rest.map fun p => (scope.atoms p).value).map (Joint.and, ·))
    (hbinary : ∀ e ∈ p :: rest, e.isBinary = true) :
    TestRow (Part.flattenAll (Block.clause c).part.children) (.ofExpr scope p)
      (rest.map fun p => (.and, .ofExpr scope p)) := by
  obtain ⟨hp, hrest⟩ := List.forall_mem_cons.1 hbinary
  have hrow : Part.flattenAll (Block.clause c).part.children =
      Part.ofAtoms (c.key + 1) (scope.atoms p).value ++
        Part.flattenAll (c.additions.map Addition.part) := by
    rw [← hatoms]
    exact (Part.flattenAll_append _ _).trans (by rw [Part.flattenAll_ofAtoms])
  have hfirst : TestRow (Part.ofAtoms (c.key + 1) (scope.atoms p).value) (.ofExpr scope p) [] :=
    .test (Reads.atoms scope p _) (Operand.isWhole_ofExpr scope hp)
  rw [hrow]
  exact hfirst.additions hadditions hrest

/-! ### Restricted statements -/

/-- A column of a statement without aliases, which belongs to the table unless it says otherwise. -/
def columnText (qualify : Bool) (table : String) (f : ColumnRef) : String :=
  if qualify then ((f.tableAlias <|> f.entity).getD table) ++ "." ++ f.field else f.field

def testText (c : Compiler) (table : String) (p : Expr) : String :=
  Text.dropLineBreaks (p.written c.dialect (columnText c.qualify table))

abbrev Scope.ofTable (table : String) : Scope := { entity := some table }

/-- The parts say that all the predicates hold, and nothing else can be read from them. Where no
predicate comes down to a number, they are a condition in the grammar of `AND` and `OR`. -/
def SaysAll (table : String) (predicates : List Expr) (parts : List Part) : Prop :=
  ∃ first rest,
    (∀ first' rest', TestRow parts first' rest' ↔ first' = first ∧ rest' = rest) ∧
    ((∀ p ∈ predicates, (Operand.ofExpr (.ofTable table) p).isBracketed = true) →
      Disjunction parts (.inRow first rest)) ∧
    ∀ holds, (Condition.inRow first rest).Admits holds ↔
      ∀ p ∈ predicates, holds (.ofExpr (.ofTable table) p)

/-- A statement that goes on behind `front` with all the predicates in one clause, from which they
can be read back if they are binary. -/
structure Restricts (c : Compiler) (table : String) (predicates : List Expr) (front : String)
    (compiled : Compiled) : Prop where
  sql : compiled.sql =
    front ++ "WHERE " ++ Text.joinWith " AND " (predicates.map (testText c table))
  clause : ∃ clause, compiled.tree.partsOf .whereClause = [clause] ∧
    ((∀ p ∈ predicates, p.isBinary = true) →
      SaysAll table predicates (Part.flattenAll clause.children))

theorem render_within {v : View} (hv : v.aliases = []) (table : String) (f : ColumnRef) :
    ((Scope.ofTable table).within f).render v = columnText v.qualify table f := by
  have hfind (e : String) : v.aliases.find? e = none := by
    rw [hv]
    rfl
  rw [Scope.within, columnText]
  cases f.tableAlias <;> cases f.entity <;>
    cases hqualify : v.qualify <;> simp [Scope.columnRef, ColumnRef.render, ColumnRef.qualifier?,
      hqualify, hfind]

namespace Outline

variable {s : Outline} {front : List Block} {clause : Clause} {table : String}

def textOf (s : Outline) (c : Compiler) (l : List Block) : String :=
  Compiler.joinPieces (l.map (Block.piece (s.view c)))

theorem sql_append_clause (h : s.blocks = front ++ [Block.clause clause]) (c : Compiler) :
    s.sql c = Text.appendFragment (s.textOf c front) (clause.written (s.view c)) := by
  have hdropped : Text.dropLineBreaks (clause.written (s.view c)) = clause.written (s.view c) :=
    Text.dropLineBreaks_dropLineBreaks _
  rw [sql, h, List.map_append, Compiler.joinPieces, List.foldl_append, List.map_singleton,
    List.foldl_cons, List.foldl_nil]
  exact congrArg (Text.appendFragment (s.textOf c front)) hdropped

theorem partsOf_append_clause (h : s.blocks = front ++ [Block.clause clause])
    (hfront : ∀ b ∈ front, b.tag ≠ clause.tag) :
    s.draft.toTree.partsOf clause.tag = [(Block.clause clause).part] := by
  have hnone : ((front.map Block.part).filter fun p => p.tag == clause.tag) = [] := by
    rw [List.filter_eq_nil_iff, List.forall_mem_map]
    exact fun b hb => by simpa using hfront b hb
  have hlast : ([(Block.clause clause).part].filter fun p => p.tag == clause.tag) =
      [(Block.clause clause).part] :=
    List.filter_eq_self.2 (List.forall_mem_singleton.2 (beq_self_eq_true clause.tag))
  rw [Tree.partsOf, draft, h, List.map_append, List.filter_append, hnone, List.map_singleton,
    hlast, List.nil_append]

theorem atomsText_ofTable (hs : s.aliases = []) (c : Compiler) (p : Expr) :
    Text.dropLineBreaks (atomsText (s.view c) ((Scope.ofTable table).atoms p).value) =
      testText c table p := by
  have hcolumn : (fun f => ((Scope.ofTable table).within f).render (s.view c)) =
      columnText c.qualify table := funext fun f => render_within hs table f
  rw [Scope.atomsText_atoms, hcolumn]
  rfl

theorem restricts (hs : s.aliases = []) {p : Expr} {predicates : List Expr}
    (hblocks : s.blocks = front ++ [Block.clause clause])
    (hfront : ∀ b ∈ front, b.tag ≠ .whereClause) (htag : clause.tag = .whereClause)
    (hatoms : clause.atoms = ((Scope.ofTable table).atoms p).value)
    (hadditions : clause.additions.map (fun a => (a.joint, a.atoms)) =
      (predicates.map fun p => ((Scope.ofTable table).atoms p).value).map (Joint.and, ·))
    (c : Compiler) {start : String}
    (hstart : ∀ text, Text.appendFragment (s.textOf c front) ("WHERE " ++ text) =
      start ++ "WHERE " ++ text) :
    Restricts c table (p :: predicates) start ⟨s.sql c, s.draft.toTree⟩ where
  sql := by
    have hpredicates : (predicates.map fun p => ((Scope.ofTable table).atoms p).value).map
        (fun l => Text.dropLineBreaks (atomsText (s.view c) l)) =
          predicates.map (testText c table) := by
      rw [List.map_map]
      exact List.map_congr_left fun p _ => atomsText_ofTable hs c p
    rw [sql_append_clause hblocks, Clause.written_restriction htag hadditions, hstart,
      List.map_cons, hatoms, atomsText_ofTable hs, hpredicates, List.map_cons]
  clause := by
    refine ⟨(Block.clause clause).part, ?_, fun hbinary => ?_⟩
    · rw [← htag] at hfront ⊢
      exact partsOf_append_clause hblocks hfront
    · have hrow := Clause.testRow hatoms hadditions hbinary
      refine ⟨_, _, fun first rest => ⟨fun h => h.unique hrow, ?_⟩, fun h => ?_, fun holds => ?_⟩
      · rintro ⟨rfl, rfl⟩
        exact hrow
      · obtain ⟨hp, hrest⟩ := List.forall_mem_cons.1 h
        exact hrow.disjunction hp (List.forall_mem_map.2 hrest)
      · have hand : ∀ next ∈ predicates.map fun p =>
            (Connective.and, Operand.ofExpr (.ofTable table) p), next.1 = .and :=
          List.forall_mem_map.2 fun _ _ => rfl
        rw [Condition.admits_inRow_of_and hand, List.forall_mem_cons, List.forall_mem_map]

end Outline

end SqlComposer
