import SqlComposer.Proofs.Outline.Tokens

/-!
# The literals of an outline

The literals of a statement are the quoted values of its parameters, depth first. An entry that a
list leaves out has no quoted value.
-/
namespace SqlComposer

open Text

/-- What values say between apostrophes, line breaks dropped. -/
def Dialect.quotedTexts (d : Dialect) (values : List Value) : List String :=
  values.filterMap fun x => (d.quoted? x).map dropLineBreaks

def Part.held? : Part → Option Value
  | .leaf _ (.parameter p) => p.held?
  | _ => none

def Tree.values (t : Tree) : List Value :=
  t.flatten.filterMap Part.held?

def Addition.values (a : Addition) : List Value :=
  a.atoms.filterMap Atom.held?

def Block.values : Block → List Value
  | .text .. => []
  | .listing l => l.entries.filterMap Entry.held?
  | .clause c => c.atoms.filterMap Atom.held? ++ c.additions.flatMap Addition.values

def Outline.values (s : Outline) : List Value :=
  s.blocks.flatMap Block.values

variable {v : View} {d : Dialect}

theorem Dialect.quotedTexts_append (xs ys : List Value) :
    d.quotedTexts (xs ++ ys) = d.quotedTexts xs ++ d.quotedTexts ys :=
  List.filterMap_append

theorem literals_value (declared : Option ColumnType) (x : Value) :
    literals (x.tokens d declared) = d.quotedTexts [x] := by
  rw [Value.literals_tokens, Dialect.quotedTexts]
  cases h : d.quoted? x <;> simp [h]

theorem Atom.literals_tokens (a : Atom) :
    literals (a.tokens v) = v.dialect.quotedTexts a.held?.toList := by
  cases a with
  | text | field => exact literals_words _
  | value | deferred => exact literals_value none _

theorem literals_rowTokens (l : List Atom) :
    literals (rowTokens v l) = v.dialect.quotedTexts (l.filterMap Atom.held?) := by
  induction l with
  | nil => rfl
  | cons a l ih =>
    have hheld : (a :: l).filterMap Atom.held? = a.held?.toList ++ l.filterMap Atom.held? := by
      cases h : a.held? <;> simp [h]
    rw [hheld, Dialect.quotedTexts_append, ← ih, ← a.literals_tokens]
    exact literals_append _ _

theorem Addition.literals_tokens (a : Addition) :
    literals (a.tokens v) = v.dialect.quotedTexts a.values := by
  simp only [tokens, literals_append, literals_words, literals_rowTokens, List.nil_append,
    List.append_nil, values]

theorem literals_additions (additions : List Addition) :
    literals (additions.flatMap (Addition.tokens v)) =
      v.dialect.quotedTexts (additions.flatMap Addition.values) := by
  induction additions with
  | nil => rfl
  | cons a additions ih =>
    rw [List.flatMap_cons, List.flatMap_cons, literals_append, Dialect.quotedTexts_append,
      a.literals_tokens, ih]

theorem Clause.literals_tokens {c : Clause} (hc : (Block.clause c).Settled) :
    literals (c.tokens v) = v.dialect.quotedTexts (Block.clause c).values := by
  have hbody : literals (c.bodyTokens v) =
      v.dialect.quotedTexts (c.atoms.filterMap Atom.held?) := by
    rw [bodyTokens]
    by_cases htag : c.tag = .fromClause
    · rw [if_pos htag, hc htag]
      exact literals_words _
    · simp only [if_neg htag, literals_append, literals_words, literals_rowTokens,
        List.nil_append, List.append_nil]
  rw [tokens, literals_append, hbody, literals_additions, ← Dialect.quotedTexts_append]
  rfl

theorem Entry.literals_tokens (e : Entry) :
    literals (e.tokens v) = v.dialect.quotedTexts e.held?.toList := by
  cases e with
  | column => exact literals_words _
  | parameter key p =>
    rw [tokens, literals_append, literals_words, List.nil_append, held?]
    cases p.held? with
    | none => rfl
    | some x => exact literals_value _ x

theorem Entry.quotedTexts_of_empty {e : Entry} (he : e.Settled) (hempty : e.written v = "") :
    v.dialect.quotedTexts e.held?.toList = [] := by
  have hspelled : (dropLineBreaks (e.written v)).toList = _ := Entry.spelled_written he
  rw [hempty] at hspelled
  have hnil : e.tokens v = [] := by
    refine List.eq_nil_iff_forall_not_mem.2 fun t ht => t.spell_ne_nil ?_
    exact List.flatMap_eq_nil_iff.1 hspelled.symm t ht
  rw [← e.literals_tokens, hnil]
  rfl

theorem Listing.literals_tokens {l : Listing} (hl : ∀ e ∈ l.entries, e.Settled) :
    literals (l.tokens v) = v.dialect.quotedTexts (l.entries.filterMap Entry.held?) := by
  have hshown : literals (l.tokens v) =
      (l.shown v).flatMap fun e => v.dialect.quotedTexts e.held?.toList := by
    rw [tokens]
    by_cases hempty : l.shown v = []
    · rw [if_pos hempty, hempty]
      exact literals_words _
    · simp only [if_neg hempty, literals_append, literals_words, literals_joinTokens,
        List.flatMap_map, Entry.literals_tokens, List.nil_append, List.append_nil]
  rw [hshown, shown]
  generalize l.entries = entries at hl
  induction entries with
  | nil => rfl
  | cons e entries ih =>
    have hrest := ih fun e' he' => hl e' (List.mem_cons_of_mem _ he')
    have hheld : (e :: entries).filterMap Entry.held? =
        e.held?.toList ++ entries.filterMap Entry.held? := by
      cases h : e.held? <;> simp [h]
    rw [hheld, Dialect.quotedTexts_append, ← hrest, List.filter_cons]
    by_cases hempty : e.written v = ""
    · rw [Entry.quotedTexts_of_empty (hl e List.mem_cons_self) hempty, List.nil_append,
        if_neg (by simpa using hempty)]
    · rw [if_pos (by simpa using hempty), List.flatMap_cons]

theorem Block.literals_tokens {b : Block} (hb : b.Settled) :
    literals (b.tokens v) = v.dialect.quotedTexts b.values := by
  cases b with
  | text => exact literals_words _
  | listing l => exact Listing.literals_tokens hb
  | clause c => exact Clause.literals_tokens hb

theorem literals_fragments {bs : List Block} (hbs : ∀ b ∈ bs, b.Settled) (ts : List Token) :
    literals ((bs.map (Block.tokens v)).foldl appendTokens ts) =
      literals ts ++ v.dialect.quotedTexts (bs.flatMap Block.values) := by
  induction bs generalizing ts with
  | nil => exact (List.append_nil _).symm
  | cons b bs ih =>
    rw [List.map_cons, List.foldl_cons, ih fun b' hb' => hbs b' (List.mem_cons_of_mem _ hb'),
      literals_appendTokens, Block.literals_tokens (hbs b List.mem_cons_self), List.flatMap_cons,
      Dialect.quotedTexts_append, List.append_assoc]

theorem Outline.literals_tokens {s : Outline} (hs : s.Each Block.Settled) :
    literals (s.tokens v) = v.dialect.quotedTexts s.values :=
  literals_fragments hs []

/-! ## Values of the draft -/

theorem Part.held?_ofAtom (key : Key) (a : Atom) : (ofAtom key a).held? = a.held? := by
  cases a <;> rfl

theorem Part.filterMap_held?_ofAtoms (key : Key) (l : List Atom) :
    (ofAtoms key l).filterMap held? = l.filterMap Atom.held? := by
  induction l generalizing key with
  | nil => rfl
  | cons a l ih => simp only [ofAtoms, List.filterMap_cons, held?_ofAtom, ih]

theorem Entry.held?_part (e : Entry) : e.part.held? = e.held? := by
  cases e <;> rfl

theorem Addition.values_part (a : Addition) :
    a.part.flatten.filterMap Part.held? = a.values := by
  simp only [part, Part.clause, Part.flatten, Part.flattenAll_ofAtoms]
  exact Part.filterMap_held?_ofAtoms _ _

theorem Block.values_part (b : Block) : b.part.flatten.filterMap Part.held? = b.values := by
  cases b with
  | text => rfl
  | listing l =>
    simp only [part, Part.flatten, Entry.flattenAll_part, List.filterMap_cons, Part.held?,
      List.filterMap_map]
    exact List.filterMap_congr fun e _ => e.held?_part
  | clause c =>
    simp only [part, Part.clause, Part.flatten, Part.flattenAll_append, Part.flattenAll_ofAtoms,
      List.filterMap_cons, Part.held?, List.filterMap_append, Part.filterMap_held?_ofAtoms]
    rw [Part.flattenAll_eq, List.flatMap_map, List.filterMap_flatMap]
    simp only [Addition.values_part, values]

theorem Outline.draft_values (s : Outline) : s.draft.toTree.values = s.values := by
  rw [Tree.values, Tree.flatten, draft, Part.flattenAll_eq, List.flatMap_map,
    List.filterMap_flatMap]
  simp only [Block.values_part, values]

end SqlComposer
