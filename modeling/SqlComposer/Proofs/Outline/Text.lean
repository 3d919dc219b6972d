import SqlComposer.Compiler
import SqlComposer.Proofs.Outcome
import SqlComposer.Proofs.Outline
import SqlComposer.Proofs.Expr.Written
import SqlComposer.Proofs.Text.Fragments

/-!
# The text of an outline

The lists and clauses of an outline always compile: none of them is a list without a frame. The
statement is the text of the blocks, joined as fragments, so whatever a block says is in it.
-/
namespace SqlComposer

variable {v : View}

def Entry.written (v : View) : Entry → String
  | .column _ f => f.render v
  | .parameter _ p => (p.render v).value

def Addition.written (v : View) (a : Addition) : String :=
  Text.dropLineBreaks (clauseText a.joint.tag "" (atomsText v a.atoms))

def Clause.written (v : View) (c : Clause) : String :=
  Text.dropLineBreaks
    (clauseText c.tag (sourceText c.entity c.tableAlias) (atomsText v c.atoms) ++
      Text.joinWith "" (c.additions.map fun a => nestedClause (a.written v)))

def Listing.frame (l : Listing) : Frame :=
  l.tag.frame?.get l.opensList

theorem Frame.write_of_ne_nil {f : Frame} {items : List String} (h : items ≠ []) :
    f.write items = f.opening ++ Text.joinWith ", " items ++ f.closing := by
  cases items with
  | nil => exact absurd rfl h
  | cons => rfl

def Listing.written (v : View) (l : Listing) : String :=
  Text.dropLineBreaks (l.frame.write ((l.entries.map (Entry.written v)).filter fun s => s ≠ ""))

def Block.written (v : View) : Block → String
  | .text _ _ s => s
  | .listing l => l.written v
  | .clause c => c.written v

def Block.piece (v : View) (b : Block) : Piece where
  text := b.written v
  isGroup := b.part.isGroup

namespace Part

theorem outcome_renderAll_append (ps qs : List Part) :
    (renderAll v (ps ++ qs)).outcome =
      (do return (← (renderAll v ps).outcome) ++ (← (renderAll v qs).outcome)) := by
  induction ps with
  | nil => cases h : (renderAll v qs).outcome <;> simp [renderAll, h] <;> rfl
  | cons p ps ih =>
    simp only [List.cons_append, renderAll, Rendering.outcome_bind, ih]
    cases (p.render v).outcome <;> cases (renderAll v ps).outcome <;>
      cases (renderAll v qs).outcome <;> rfl

theorem outcome_renderAll_map {α : Type} {part : α → Part} {text : α → String}
    (h : ∀ a, ((part a).render v).outcome = .ok (text a)) (as : List α) :
    (renderAll v (as.map part)).outcome =
      .ok (as.map fun a => ⟨text a, (part a).isGroup⟩) := by
  induction as with
  | nil => rfl
  | cons a as ih =>
    simp only [List.map_cons, renderAll, Rendering.outcome_bind, h, ih]
    rfl

theorem outcome_render_ofAtom (key : Key) (a : Atom) :
    ((ofAtom key a).render v).outcome = .ok (a.render v).value := by
  cases a <;> rfl

theorem outcome_renderAll_ofAtoms (key : Key) (l : List Atom) :
    (renderAll v (ofAtoms key l)).outcome =
      .ok (l.map fun a => ⟨(a.render v).value, false⟩) := by
  induction l generalizing key with
  | nil => rfl
  | cons a l ih =>
    simp only [ofAtoms, renderAll, Rendering.outcome_bind, outcome_render_ofAtom, ih]
    cases a <;> rfl

end Part

def Clause.pieces (v : View) (c : Clause) : List Piece :=
  c.atoms.map (fun a => ⟨(a.render v).value, false⟩) ++
    c.additions.map fun a => ⟨a.written v, true⟩

theorem bodyText_pieces (c : Clause) : bodyText (c.pieces v) = atomsText v c.atoms := by
  have hatoms : (c.atoms.map fun a => (⟨(a.render v).value, false⟩ : Piece)).filter
      (fun p => !p.isGroup) = c.atoms.map fun a => ⟨(a.render v).value, false⟩ :=
    List.filter_eq_self.2 fun p hp => by
      obtain ⟨a, -, rfl⟩ := List.mem_map.1 hp
      rfl
  have hadditions : (c.additions.map fun a => (⟨a.written v, true⟩ : Piece)).filter
      (fun p => !p.isGroup) = [] :=
    List.filter_eq_nil_iff.2 fun p hp => by
      obtain ⟨a, -, rfl⟩ := List.mem_map.1 hp
      nofun
  rw [bodyText, Clause.pieces, List.filter_append, hatoms, hadditions, List.append_nil,
    ← String.toList_inj, Text.toList_joinWith_empty, toList_atomsText, List.flatMap_map,
    List.flatMap_map]

theorem nestedText_pieces (c : Clause) :
    nestedText (c.pieces v) =
      Text.joinWith "" (c.additions.map fun a => nestedClause (a.written v)) := by
  have hatoms : (c.atoms.map fun a => (⟨(a.render v).value, false⟩ : Piece)).filter
      Piece.isGroup = [] :=
    List.filter_eq_nil_iff.2 fun p hp => by
      obtain ⟨a, -, rfl⟩ := List.mem_map.1 hp
      nofun
  have hadditions : (c.additions.map fun a => (⟨a.written v, true⟩ : Piece)).filter
      Piece.isGroup = c.additions.map fun a => ⟨a.written v, true⟩ :=
    List.filter_eq_self.2 fun p hp => by
      obtain ⟨a, -, rfl⟩ := List.mem_map.1 hp
      rfl
  rw [nestedText, Clause.pieces, List.filter_append, hatoms, hadditions, List.nil_append,
    List.map_map]
  rfl

theorem writeClause_pieces (c : Clause) :
    writeClause c.tag c.entity c.tableAlias (c.pieces v) = c.written v := by
  rw [writeClause, bodyText_pieces, nestedText_pieces, Clause.written]

namespace Part

/-- A list with the tag whose children are written as the items, or as nothing. -/
def IsList (v : View) (tag : Tag) (items : List String) (p : Part) : Prop :=
  ∃ head children isClosed pieces, p = .group head .list children isClosed ∧ head.tag = tag ∧
    (renderAll v children).outcome = .ok pieces ∧ Compiler.nonEmpty pieces = items

/-- A clause with the tag over the source, whose children are written as the body. -/
def IsClause (v : View) (tag : Tag) (source body : String) (p : Part) : Prop :=
  ∃ head entity tableAlias children isClosed pieces,
    p = .group head (.clause entity tableAlias) children isClosed ∧ head.tag = tag ∧
      sourceText entity tableAlias = source ∧ (renderAll v children).outcome = .ok pieces ∧
      bodyText pieces = body

theorem outcome_render_entry (e : Entry) : (e.part.render v).outcome = .ok (e.written v) := by
  cases e <;> rfl

theorem outcome_render_addition (a : Addition) :
    (a.part.render v).outcome = .ok (a.written v) := by
  have hclause := writeClause_pieces (v := v) a.clause
  simp only [Clause.pieces, Addition.clause, List.map_nil, List.append_nil] at hclause
  rw [Addition.part, Part.clause, Part.render, Rendering.outcome_bind,
    Part.outcome_renderAll_ofAtoms]
  refine congrArg Except.ok (hclause.trans ?_)
  simp [Clause.written, Addition.written, sourceText, Text.joinWith]

theorem outcome_renderAll_clause (c : Clause) :
    (renderAll v (Block.clause c).part.children).outcome = .ok (c.pieces v) := by
  rw [Block.part, Part.clause, children, outcome_renderAll_append, outcome_renderAll_ofAtoms,
    outcome_renderAll_map outcome_render_addition]
  rfl

theorem outcome_render_clause (c : Clause) :
    ((Block.clause c).part.render v).outcome = .ok (c.written v) := by
  have hpieces := outcome_renderAll_clause (v := v) c
  rw [Block.part, Part.clause, children] at hpieces
  rw [Block.part, Part.clause, Part.render, Rendering.outcome_bind, hpieces]
  exact congrArg Except.ok (writeClause_pieces c)

theorem outcome_render_listing (l : Listing) :
    ((Block.listing l).part.render v).outcome = .ok (l.written v) := by
  have hframe : l.tag.frame? = some l.frame := (Option.some_get l.opensList).symm
  rw [Block.part, Part.render]
  simp only [hframe, Rendering.outcome_bind, outcome_renderAll_map outcome_render_entry]
  refine congrArg Except.ok ?_
  rw [writeList, List.map_map, Listing.written]
  rfl

theorem outcome_render_block (b : Block) : (b.part.render v).outcome = .ok (b.written v) := by
  cases b with
  | text _ verb s => cases verb <;> rfl
  | listing l => exact outcome_render_listing l
  | clause c => exact outcome_render_clause c

end Part

namespace Outline

theorem mem_flatten_draft (s : Outline) {b : Block} (hb : b ∈ s.blocks) {p : Part}
    (hp : p ∈ b.part.flatten) : p ∈ s.draft.toTree.flatten := by
  rw [Tree.flatten, Part.flattenAll_eq]
  exact List.mem_flatMap.2 ⟨b.part, List.mem_map_of_mem hb, hp⟩

def view (s : Outline) (c : Compiler) : View :=
  s.draft.view c.dialect c.qualify

def sql (s : Outline) (c : Compiler) : String :=
  Compiler.joinPieces (s.blocks.map (Block.piece (s.view c)))

def compiled (s : Outline) (c : Compiler) : Compiled :=
  ⟨s.sql c, s.draft.toTree⟩

theorem outcome_compile (s : Outline) (c : Compiler) :
    (c.compile s.draft.toTree).outcome = .ok ⟨s.sql c, s.draft.toTree⟩ := by
  have hrender := Part.outcome_renderAll_map (v := s.view c) Part.outcome_render_block s.blocks
  have hsql : (c.sql s.draft.toTree).outcome = .ok (s.sql c) := by
    rw [Compiler.sql]
    simp only [draft, Compiler.statementSql, Rendering.outcome_bind]
    simp only [view, draft] at hrender
    rw [hrender]
    rfl
  rw [Compiler.compile, Rendering.outcome_bind, hsql]
  rfl

end Outline

namespace Block

/-- A clause that has the atoms as its body, or goes on with them. -/
def Says (tag : Tag) (entity tableAlias : Option String) (atoms : List Atom) (b : Block) : Prop :=
  ∃ c, b = .clause c ∧
    ((c.tag = tag ∧ c.entity = entity ∧ c.tableAlias = tableAlias ∧ c.atoms = atoms) ∨
      (entity = none ∧ ∃ a ∈ c.additions, a.joint.tag = tag ∧ a.atoms = atoms))

def Lists (tag : Tag) (f : ColumnRef) (b : Block) : Prop :=
  ∃ l key, b = .listing l ∧ l.tag = tag ∧ .column key f ∈ l.entries

theorem lasting_says (tag : Tag) (entity tableAlias : Option String) (atoms : List Atom) :
    Lasting (Says tag entity tableAlias atoms) where
  nest := by
    rintro _ a ⟨c, rfl, h | ⟨hentity, a', ha', h⟩⟩
    · exact ⟨c.nest a, rfl, .inl h⟩
    · exact ⟨c.nest a, rfl, .inr ⟨hentity, a', List.mem_append_left _ ha', h⟩⟩
  enter := by
    rintro _ e ⟨c, rfl, h⟩
    exact ⟨c, rfl, h⟩
  apart := by
    rintro _ ⟨c, rfl, -⟩ htag
    have hframe := c.opensNoList
    rw [show c.tag = .select from htag] at hframe
    cases hframe

theorem Lists.nest {tag : Tag} {f : ColumnRef} {b : Block} (a : Addition) (h : b.Lists tag f) :
    (b.nest a).Lists tag f := by
  obtain ⟨l, key, rfl, h⟩ := h
  exact ⟨l, key, rfl, h⟩

theorem Lists.enter {tag : Tag} {f : ColumnRef} {b : Block} (e : Entry) (h : b.Lists tag f) :
    (b.enter e).Lists tag f := by
  obtain ⟨l, key, rfl, htag, hf⟩ := h
  refine ⟨l.enter e, key, rfl, htag, ?_⟩
  rw [Listing.enter]
  cases l.isClosed with
  | true => exact hf
  | false => exact List.mem_append_left _ hf

theorem lasting_lists {tag : Tag} (f : ColumnRef) (htag : tag ≠ .select) :
    Lasting (Lists tag f) where
  nest := Lists.nest
  enter := Lists.enter
  apart := by
    rintro _ ⟨l, _, rfl, hl, -⟩ h
    exact htag (hl.symm.trans h)

theorem Says.contains {tag : Tag} {entity tableAlias : Option String} {atoms : List Atom}
    {b : Block} (h : b.Says tag entity tableAlias atoms) :
    Text.Contains (b.written v)
      (Text.dropLineBreaks
        (clauseText tag (sourceText entity tableAlias) (atomsText v atoms))) := by
  obtain ⟨c, rfl, ⟨rfl, rfl, rfl, rfl⟩ | ⟨rfl, a, ha, rfl, rfl⟩⟩ := h
  · exact (Text.contains_append_left _ _).dropLineBreaks
  · have haddition : Text.Contains (nestedClause (a.written v)) (a.written v) := by
      rw [nestedClause]
      split_ifs with hempty
      · rw [hempty]
        exact .refl _
      · exact .refl _
      · exact Text.contains_append_right _ _
    have hnested : Text.Contains
        (Text.joinWith "" (c.additions.map fun a => nestedClause (a.written v)))
        (nestedClause (a.written v)) :=
      Text.contains_joinWith (List.mem_map.2 ⟨a, ha, rfl⟩)
    have hbody (body : String) := ((Text.contains_append_right body _).trans
      (hnested.trans haddition)).dropLineBreaks
    simp only [Addition.written, Text.dropLineBreaks_dropLineBreaks] at hbody
    exact hbody _

theorem isClause_part (c : Clause) :
    (clause c).part.IsClause v c.tag (sourceText c.entity c.tableAlias) (atomsText v c.atoms) :=
  ⟨_, c.entity, c.tableAlias, _, false, _, rfl, rfl, rfl, Part.outcome_renderAll_clause c,
    bodyText_pieces c⟩

theorem Says.isClause {tag : Tag} {entity tableAlias : Option String} {atoms : List Atom}
    {b : Block} (h : b.Says tag entity tableAlias atoms) :
    ∃ p ∈ b.part.flatten, p.IsClause v tag (sourceText entity tableAlias) (atomsText v atoms) := by
  obtain ⟨c, rfl, ⟨rfl, rfl, rfl, rfl⟩ | ⟨rfl, a, ha, rfl, rfl⟩⟩ := h
  · refine ⟨_, ?_, isClause_part c⟩
    rw [Part.flatten_eq]
    exact List.mem_cons_self
  · have hpart : (clause a.clause).part = a.part := by
      simp only [part, Addition.clause, List.map_nil, List.append_nil]
      rfl
    refine ⟨a.part, ?_, hpart ▸ isClause_part a.clause⟩
    rw [Part.flatten_eq, part, Part.clause, Part.children, Part.flattenAll_append]
    refine List.mem_cons_of_mem _ (List.mem_append_right _ ?_)
    rw [Part.flattenAll_eq, List.mem_flatMap]
    refine ⟨a.part, List.mem_map_of_mem ha, ?_⟩
    rw [Part.flatten_eq]
    exact List.mem_cons_self

theorem isList_part (l : Listing) :
    (listing l).part.IsList v l.tag ((l.entries.map (Entry.written v)).filter fun s => s ≠ "") := by
  refine ⟨_, _, l.isClosed, _, rfl, rfl, Part.outcome_renderAll_map Part.outcome_render_entry _, ?_⟩
  rw [Compiler.nonEmpty, List.map_map]
  rfl

theorem Lists.isList {tag : Tag} {f : ColumnRef} {b : Block} (h : b.Lists tag f)
    {frame : Frame} (hframe : tag.frame? = some frame) (hf : f.render v ≠ "") :
    ∃ items, b.part.IsList v tag items ∧ f ∈ b.part.fields ∧ f.render v ∈ items ∧ b.written v =
      Text.dropLineBreaks (frame.opening ++ Text.joinWith ", " items ++ frame.closing) := by
  obtain ⟨l, key, rfl, rfl, hentry⟩ := h
  obtain rfl : l.frame = frame := by simp [Listing.frame, hframe]
  have hmem : f.render v ∈ (l.entries.map (Entry.written v)).filter fun s => s ≠ "" := by
    refine List.mem_filter.2 ⟨?_, by simpa using hf⟩
    exact List.mem_map_of_mem (f := Entry.written v) hentry
  refine ⟨_, isList_part l, ?_, hmem, ?_⟩
  · exact List.mem_filterMap.2 ⟨_, List.mem_map_of_mem hentry, rfl⟩
  · rw [written, Listing.written, Frame.write_of_ne_nil (List.ne_nil_of_mem hmem)]

end Block

namespace Compiler

theorem joinPieces_eq_joinFragments (pieces : List Piece) :
    joinPieces pieces = Text.joinFragments (pieces.map Piece.text) := by
  rw [joinPieces, Text.joinFragments, List.foldl_map]

theorem contains_foldl (pieces : List Piece) (sql : String) :
    Text.Contains
      (pieces.foldl (fun sql p => Text.appendFragment sql (Text.dropLineBreaks p.text)) sql)
      sql := by
  induction pieces generalizing sql with
  | nil => exact .refl sql
  | cons p pieces ih => exact (ih _).trans (Text.contains_appendFragment_left _ _)

theorem contains_joinPieces {pieces : List Piece} {p : Piece} (hp : p ∈ pieces) :
    Text.Contains (joinPieces pieces) (Text.dropLineBreaks p.text) := by
  obtain ⟨l, r, rfl⟩ := List.append_of_mem hp
  rw [joinPieces, List.foldl_append, List.foldl_cons]
  exact (contains_foldl r _).trans (Text.contains_appendFragment_right _ _)

end Compiler

namespace Outline

theorem Has.contains_sql {s : Outline} {c : Compiler} {P : Block → Prop} {text : String}
    (h : s.Has P)
    (hP : ∀ {b}, P b → Text.Contains (b.written (s.view c)) (Text.dropLineBreaks text)) :
    Text.Contains (s.sql c) (Text.dropLineBreaks text) := by
  obtain ⟨b, hb, hPb⟩ := h
  have hpiece := Compiler.contains_joinPieces (List.mem_map_of_mem (f := Block.piece (s.view c)) hb)
  have htext := (hP hPb).dropLineBreaks
  rw [Text.dropLineBreaks_dropLineBreaks] at htext
  exact hpiece.trans htext

end Outline

end SqlComposer
