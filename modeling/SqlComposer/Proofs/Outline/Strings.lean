import SqlComposer.Proofs.Draft.Strings
import SqlComposer.Proofs.Outline.Literals

/-!
# Outlines with other strings

An outline with other strings is written with the same tokens outside of its literals, and its
literals say the other strings.
-/
namespace SqlComposer

open Text

variable (f : String → String)

def Entry.mapString : Entry → Entry
  | .column key r => .column key r
  | .parameter key p => .parameter key (p.mapString f)

def Addition.mapStrings (a : Addition) : Addition :=
  { a with atoms := a.atoms.map (Atom.mapString f) }

def Listing.mapStrings (l : Listing) : Listing :=
  { l with entries := l.entries.map (Entry.mapString f) }

def Clause.mapStrings (c : Clause) : Clause :=
  { c with
    atoms := c.atoms.map (Atom.mapString f)
    additions := c.additions.map (Addition.mapStrings f) }

def Block.mapStrings : Block → Block
  | .text key verb s => .text key verb s
  | .listing l => .listing (l.mapStrings f)
  | .clause c => .clause (c.mapStrings f)

def Outline.mapStrings (s : Outline) : Outline :=
  { s with blocks := s.blocks.map (Block.mapStrings f) }

def Operand.mapStrings : Operand → Operand
  | .column r => .column r
  | .parameter p => .parameter (p.mapString f)
  | .binary op left right => .binary op left.mapStrings right.mapStrings
  | .nullTest expected tested => .nullTest expected tested.mapStrings

/-! ## Drafts of outlines with other strings -/

theorem Entry.part_mapString (e : Entry) : (e.mapString f).part = e.part.mapStrings f := by
  cases e <;> rfl

theorem Addition.part_mapStrings (a : Addition) :
    (a.mapStrings f).part = a.part.mapStrings f :=
  (Part.mapStrings_clause f a.key a.joint.tag none none a.atoms).symm

theorem Block.part_mapStrings (b : Block) : (b.mapStrings f).part = b.part.mapStrings f := by
  cases b with
  | text => rfl
  | listing l =>
    rw [mapStrings, part, part, Part.mapStrings, Part.mapParameters, Part.mapParametersAll_eq,
      Listing.mapStrings, List.map_map, List.map_map]
    congr 1
    exact List.map_congr_left fun e _ => e.part_mapString f
  | clause c =>
    rw [mapStrings, part, part, Part.mapStrings, Part.clause, Part.clause, Part.mapParameters,
      Part.mapParametersAll_eq, List.map_append, ← Part.mapParametersAll_eq,
      Part.mapParametersAll_ofAtoms, Clause.mapStrings, List.map_map, List.map_map]
    congr 2
    exact List.map_congr_left fun a _ => a.part_mapStrings f

namespace Outline

theorem draft_mapStrings (s : Outline) : (s.mapStrings f).draft = s.draft.mapStrings f := by
  rw [mapStrings, draft, draft, Draft.mapStrings, Draft.mapParameters, Part.mapParametersAll_eq,
    List.map_map, List.map_map]
  congr 2
  exact List.map_congr_left fun b _ => b.part_mapStrings f

theorem view_mapStrings (s : Outline) (c : Compiler) : (s.mapStrings f).view c = s.view c := by
  rw [view, draft_mapStrings]
  exact s.draft.toTree.view_mapParameters c.dialect c.qualify

end Outline

/-! ## Values -/

theorem Parameter.held?_mapString (p : Parameter) :
    (p.mapString f).held? = p.held?.map (Value.mapString f) := by
  obtain ⟨source, _, _⟩ := p
  cases source <;> rfl

theorem Atom.held?_mapString (a : Atom) :
    (a.mapString f).held? = a.held?.map (Value.mapString f) := by
  cases a <;> rfl

theorem Entry.held?_mapString (e : Entry) :
    (e.mapString f).held? = e.held?.map (Value.mapString f) := by
  cases e with
  | column => rfl
  | parameter key p => exact p.held?_mapString f

theorem filterMap_held?_mapString (l : List Atom) :
    (l.map (Atom.mapString f)).filterMap Atom.held? =
      (l.filterMap Atom.held?).map (Value.mapString f) := by
  rw [List.filterMap_map, List.map_filterMap]
  exact List.filterMap_congr fun a _ => a.held?_mapString f

theorem Block.values_mapStrings (b : Block) :
    (b.mapStrings f).values = b.values.map (Value.mapString f) := by
  cases b with
  | text => rfl
  | listing l =>
    rw [mapStrings, values, values, Listing.mapStrings, List.filterMap_map, List.map_filterMap]
    exact List.filterMap_congr fun e _ => e.held?_mapString f
  | clause c =>
    rw [mapStrings, values, values, Clause.mapStrings, List.map_append, filterMap_held?_mapString,
      List.flatMap_map, List.map_flatMap]
    congr 2
    funext a
    exact filterMap_held?_mapString f a.atoms

theorem Outline.values_mapStrings (s : Outline) :
    (s.mapStrings f).values = s.values.map (Value.mapString f) := by
  rw [values, values, mapStrings, List.flatMap_map, List.map_flatMap]
  congr 1
  funext b
  exact b.values_mapStrings f

/-! ## Cleanness -/

theorem Parameter.atom?_mapString (p : Parameter) :
    (p.mapString f).atom? = p.atom?.map (Atom.mapString f) := by
  obtain ⟨source, _, _⟩ := p
  cases source <;> rfl

theorem Operand.row_mapStrings (t : Operand) :
    (t.mapStrings f).row = t.row.map (Atom.mapString f) := by
  induction t with
  | column => rfl
  | parameter p =>
    rw [mapStrings, row, Parameter.atom?_mapString, row]
    cases p.atom? <;> rfl
  | binary op left right ihl ihr =>
    simp only [mapStrings, row, ihl, ihr, List.map_cons, List.map_append, List.map_nil]
    rfl
  | nullTest expected tested ih =>
    simp only [mapStrings, row, ih, List.map_cons, List.map_append, List.map_nil]
    rfl

theorem Operand.clean_mapStrings {t : Operand} (ht : t.Clean) : (t.mapStrings f).Clean := by
  induction t with
  | column => exact ht
  | parameter p =>
    intro x hx
    rw [Parameter.held?_mapString] at hx
    obtain ⟨y, hy, rfl⟩ := Option.map_eq_some_iff.1 hx
    exact Value.clean_mapString f (ht y hy)
  | binary op left right ihl ihr => exact ⟨ihl ht.1, ihr ht.2⟩
  | nullTest expected tested ih => exact ih ht

theorem CleanRow.mapStrings {l : List Atom} (hl : CleanRow l) :
    CleanRow (l.map (Atom.mapString f)) := by
  obtain rfl | ⟨t, ht, rfl⟩ := hl
  · exact .inl rfl
  · exact .inr ⟨t.mapStrings f, t.clean_mapStrings f ht, (t.row_mapStrings f).symm⟩

theorem Entry.clean_mapString {e : Entry} (he : e.Clean) : (e.mapString f).Clean := by
  cases e with
  | column => exact he
  | parameter key p =>
    obtain ⟨hname, x, hx, hclean⟩ := he
    exact ⟨hname, x.mapString f, by rw [Parameter.held?_mapString, hx]; rfl,
      Value.clean_mapString f hclean⟩

theorem Block.clean_mapStrings {b : Block} (hb : b.Clean) : (b.mapStrings f).Clean := by
  cases b with
  | text => exact hb
  | listing l =>
    intro e he
    obtain ⟨e, hmem, rfl⟩ := List.mem_map.1 he
    exact Entry.clean_mapString f (hb e hmem)
  | clause c =>
    obtain ⟨hentity, halias, hatoms, hfrom, hadditions⟩ := hb
    refine ⟨hentity, halias, hatoms.mapStrings f, fun htag => ?_, fun a ha => ?_⟩
    · exact List.map_eq_nil_iff.2 (hfrom htag)
    · obtain ⟨a, hmem, rfl⟩ := List.mem_map.1 ha
      exact (hadditions a hmem).mapStrings f

theorem Outline.Clean.mapStrings {s : Outline} (hs : s.Clean) : (s.mapStrings f).Clean where
  blocks b hb := by
    obtain ⟨b, hmem, rfl⟩ := List.mem_map.1 hb
    exact Block.clean_mapStrings f (hs.blocks b hmem)
  aliases := hs.aliases

theorem Entry.settled_mapString {e : Entry} (he : e.Settled) : (e.mapString f).Settled := by
  cases e with
  | column => exact he
  | parameter key p =>
    obtain ⟨x, hx⟩ := he
    exact ⟨x.mapString f, by rw [Parameter.held?_mapString, hx]; rfl⟩

theorem Block.settled_mapStrings {b : Block} (hb : b.Settled) : (b.mapStrings f).Settled := by
  cases b with
  | text => exact hb
  | listing l =>
    intro e he
    obtain ⟨e, hmem, rfl⟩ := List.mem_map.1 he
    exact Entry.settled_mapString f (hb e hmem)
  | clause c => exact fun htag => List.map_eq_nil_iff.2 (hb htag)

theorem Outline.settled_mapStrings {s : Outline} (hs : s.Each Block.Settled) :
    (s.mapStrings f).Each Block.Settled := by
  intro b hb
  obtain ⟨b, hmem, rfl⟩ := List.mem_map.1 hb
  exact Block.settled_mapStrings f (hs b hmem)

/-! ## Shapes -/

variable {v : View}

theorem shape_rowTokens (l : List Atom) :
    (rowTokens v (l.map (Atom.mapString f))).map Token.shape =
      (rowTokens v l).map Token.shape := by
  rw [rowTokens, rowTokens, List.flatMap_map, List.map_flatMap, List.map_flatMap]
  congr 1
  funext a
  cases a with
  | text | field => rfl
  | value | deferred => exact Value.map_shape_tokens f _ _ _

theorem Entry.shape_tokens (e : Entry) :
    ((e.mapString f).tokens v).map Token.shape = (e.tokens v).map Token.shape := by
  cases e with
  | column => rfl
  | parameter key p =>
    rw [mapString, tokens, tokens, Parameter.held?_mapString, List.map_append, List.map_append]
    refine congrArg _ ?_
    cases p.held? with
    | none => rfl
    | some x => exact x.map_shape_tokens f _ _

theorem Addition.shape_tokens (a : Addition) :
    ((a.mapStrings f).tokens v).map Token.shape = (a.tokens v).map Token.shape := by
  simp only [tokens, mapStrings, List.map_append, shape_rowTokens]

theorem Clause.shape_tokens (c : Clause) :
    ((c.mapStrings f).tokens v).map Token.shape = (c.tokens v).map Token.shape := by
  have hbody : ((c.mapStrings f).bodyTokens v).map Token.shape =
      (c.bodyTokens v).map Token.shape := by
    have hatoms := shape_rowTokens f (v := v) c.atoms
    rw [bodyTokens, bodyTokens]
    by_cases htag : c.tag = .fromClause
    · rw [if_pos htag, if_pos (show (c.mapStrings f).tag = .fromClause from htag)]
      rfl
    · rw [if_neg htag, if_neg (show ¬(c.mapStrings f).tag = .fromClause from htag)]
      simp only [List.map_append, ← hatoms]
      rfl
  rw [tokens, tokens, List.map_append, List.map_append, hbody, mapStrings, List.flatMap_map,
    List.map_flatMap, List.map_flatMap]
  simp only [Addition.shape_tokens]

theorem Entry.written_mapString_eq_empty {e : Entry} (he : e.Settled) :
    (e.mapString f).written v = "" ↔ e.written v = "" := by
  cases e with
  | column => rfl
  | parameter key p =>
    obtain ⟨x, hx⟩ := he
    have hx' : (p.mapString f).held? = some (x.mapString f) := by
      rw [Parameter.held?_mapString, hx]
      rfl
    rw [mapString, written, written, Parameter.render_value hx, Parameter.render_value hx',
      String.append_eq_empty_iff, String.append_eq_empty_iff]
    exact and_congr_right fun _ => x.written_mapString_eq_empty f _ _

theorem Listing.shape_tokens {l : Listing} (hl : ∀ e ∈ l.entries, e.Settled) :
    ((l.mapStrings f).tokens v).map Token.shape = (l.tokens v).map Token.shape := by
  have hshown : (l.mapStrings f).shown v = (l.shown v).map (Entry.mapString f) := by
    rw [shown, mapStrings, List.filter_map, shown]
    refine congrArg _ (List.filter_congr fun e he => ?_)
    simp only [Function.comp_apply, ne_eq, Entry.written_mapString_eq_empty f (hl e he)]
  have hrows : ((l.shown v).map fun e => ((e.mapString f).tokens v).map Token.shape) =
      (l.shown v).map fun e => (e.tokens v).map Token.shape :=
    List.map_congr_left fun e _ => e.shape_tokens f
  rw [tokens, tokens, hshown]
  by_cases hempty : l.shown v = []
  · rw [if_pos (by rw [hempty]; rfl), if_pos hempty]
    rfl
  · rw [if_neg (by simpa using hempty), if_neg hempty]
    simp only [List.map_append, map_joinTokens, List.map_map, Function.comp_def, hrows]
    rfl

theorem Block.shape_tokens {b : Block} (hb : b.Settled) :
    ((b.mapStrings f).tokens v).map Token.shape = (b.tokens v).map Token.shape := by
  cases b with
  | text => rfl
  | listing l => exact Listing.shape_tokens f hb
  | clause c => exact c.shape_tokens f

theorem shape_fragments {bs : List Block} (hbs : ∀ b ∈ bs, b.Settled) {ts us : List Token}
    (h : us.map Token.shape = ts.map Token.shape) :
    (((bs.map (Block.mapStrings f)).map (Block.tokens v)).foldl appendTokens us).map Token.shape =
      ((bs.map (Block.tokens v)).foldl appendTokens ts).map Token.shape := by
  induction bs generalizing ts us with
  | nil => exact h
  | cons b bs ih =>
    refine ih (fun b' hb' => hbs b' (List.mem_cons_of_mem _ hb')) ?_
    rw [map_shape_appendTokens, map_shape_appendTokens, h,
      Block.shape_tokens f (hbs b List.mem_cons_self)]

theorem Outline.shape_tokens {s : Outline} (hs : s.Each Block.Settled) :
    ((s.mapStrings f).tokens v).map Token.shape = (s.tokens v).map Token.shape :=
  shape_fragments f hs rfl

end SqlComposer
