import SqlComposer.Proofs.Outline.Text
import SqlComposer.Proofs.Value.Literal

/-!
# The tokens of an outline

The text of an outline spelled out as tokens, block by block. No two literals touch if the
identifiers have no apostrophes, and the literals are the quoted values of the outline in order.
-/
namespace SqlComposer

open Text

/-- The value of a parameter that does not wait for columns. -/
def Parameter.held? (p : Parameter) : Option Value :=
  match p.source with
  | .value v => some v
  | .deferred d => some d.result
  | .expr _ => none

namespace Atom

def tokens (v : View) : Atom → List Token
  | .text s => words s
  | .field f => words (f.render v)
  | .value x => x.tokens v.dialect none
  | .deferred d => d.result.tokens v.dialect none

def held? : Atom → Option Value
  | .value x => some x
  | .deferred d => some d.result
  | _ => none

theorem spelled_render (v : View) (a : Atom) : Spelled (a.render v).value (a.tokens v) := by
  cases a with
  | text | field => exact spelled_words _
  | value | deferred => exact Value.spelled_written _ _ _

end Atom

def rowTokens (v : View) (l : List Atom) : List Token :=
  l.flatMap (Atom.tokens v)

theorem spelled_atomsText (v : View) (l : List Atom) :
    Spelled (atomsText v l) (rowTokens v l) := by
  induction l with
  | nil => rfl
  | cons a l ih =>
    rw [atomsText_cons]
    exact (a.spelled_render v).append ih

def Parameter.prefixText (p : Parameter) : String :=
  match p.name with
  | some name => if name = "" then "" else name ++ "="
  | none => ""

namespace Entry

def held? : Entry → Option Value
  | .column _ _ => none
  | .parameter _ p => p.held?

def tokens (v : View) : Entry → List Token
  | .column _ f => words (f.render v)
  | .parameter _ p =>
    words p.prefixText ++ (p.held?.map (Value.tokens v.dialect p.declared)).getD []

end Entry

theorem Parameter.render_value {p : Parameter} {x : Value} (h : p.held? = some x) (v : View) :
    (p.render v).value = p.prefixText ++ v.dialect.written x p.declared := by
  obtain ⟨source, name, declared⟩ := p
  have hbare : (Parameter.bare v ⟨source, name, declared⟩).value =
      v.dialect.written x declared := by
    cases source with
    | value | deferred =>
      cases h
      rfl
    | expr => cases h
  cases name with
  | none =>
    refine hbare.trans ?_
    simp [prefixText]
  | some name =>
    by_cases hname : name = ""
    · subst hname
      simp [render, prefixText, hbare]
    · simp [render, prefixText, hname, hbare, String.append_assoc]

namespace Addition

/-- The words around the body of an addition, in its place behind a clause. -/
def around (j : Joint) : String × String :=
  match j with
  | .and => (" AND ", "")
  | .or => (" OR ", "")
  | .thenBy => (", ", " ASC")
  | .thenByDesc => (", ", " DESC")

def tokens (v : View) (a : Addition) : List Token :=
  words (around a.joint).1 ++ rowTokens v a.atoms ++ words (around a.joint).2

theorem nestedClause_eq (v : View) (a : Addition) :
    nestedClause (a.written v) =
      (around a.joint).1 ++ dropLineBreaks (atomsText v a.atoms) ++ (around a.joint).2 := by
  have hdrop (s t u : String) (hs : dropLineBreaks s = s) (hu : dropLineBreaks u = u) :
      dropLineBreaks (s ++ t ++ u) = s ++ dropLineBreaks t ++ u := by
    rw [dropLineBreaks_append, dropLineBreaks_append, hs, hu]
  rw [written]
  cases a.joint with
  | and =>
    have h := hdrop "AND " (atomsText v a.atoms) "" (by decide) (by decide)
    simp only [String.append_empty] at h
    rw [Joint.tag, clauseText, h, nestedClause]
    simp [around, ← String.toList_inj]
  | or =>
    have h := hdrop "OR " (atomsText v a.atoms) "" (by decide) (by decide)
    simp only [String.append_empty] at h
    rw [Joint.tag, clauseText, h, nestedClause]
    simp [around, ← String.toList_inj]
  | thenBy =>
    rw [Joint.tag, clauseText, hdrop ", " (atomsText v a.atoms) " ASC" (by decide) (by decide),
      nestedClause]
    simp [around, ← String.toList_inj]
  | thenByDesc =>
    rw [Joint.tag, clauseText, hdrop ", " (atomsText v a.atoms) " DESC" (by decide) (by decide),
      nestedClause]
    simp [around, ← String.toList_inj]

theorem spelled_nestedClause (v : View) (a : Addition) :
    Spelled (nestedClause (a.written v)) (a.tokens v) := by
  rw [nestedClause_eq]
  exact ((spelled_words _).append (spelled_atomsText v a.atoms).dropLineBreaks).append
    (spelled_words _)

end Addition

def aroundBody (tag : Tag) (source : String) : String × String :=
  match tag with
  | .join => ("JOIN " ++ source ++ " ON ", "")
  | .leftJoin => ("LEFT JOIN " ++ source ++ " ON ", "")
  | .rightJoin => ("RIGHT JOIN " ++ source ++ " ON ", "")
  | .fullJoin => ("FULL JOIN " ++ source ++ " ON ", "")
  | .whereClause => ("WHERE ", "")
  | .andClause => ("AND ", "")
  | .orClause => ("OR ", "")
  | .having => ("HAVING ", "")
  | .orderBy => ("ORDER BY ", " ASC")
  | .orderByDesc => ("ORDER BY ", " DESC")
  | .thenBy => (", ", " ASC")
  | .thenByDesc => (", ", " DESC")
  | _ => ("", "")

theorem clauseText_eq {tag : Tag} (htag : tag ≠ .fromClause) (source body : String) :
    clauseText tag source body =
      (aroundBody tag source).1 ++ body ++ (aroundBody tag source).2 := by
  unfold clauseText aroundBody
  split
  case h_1 => exact absurd rfl htag
  all_goals simp

namespace Clause

def source (c : Clause) : String :=
  sourceText c.entity c.tableAlias

def bodyTokens (v : View) (c : Clause) : List Token :=
  if c.tag = .fromClause then words ("FROM " ++ c.source)
  else
    words (aroundBody c.tag c.source).1 ++ rowTokens v c.atoms ++
      words (aroundBody c.tag c.source).2

def tokens (v : View) (c : Clause) : List Token :=
  c.bodyTokens v ++ c.additions.flatMap (Addition.tokens v)

theorem spelled_written (v : View) (c : Clause) : Spelled (c.written v) (c.tokens v) := by
  have hbody : Spelled (clauseText c.tag c.source (atomsText v c.atoms)) (c.bodyTokens v) := by
    rw [bodyTokens]
    by_cases htag : c.tag = .fromClause
    · rw [if_pos htag, htag]
      exact spelled_words _
    · rw [if_neg htag, clauseText_eq htag]
      exact ((spelled_words _).append (spelled_atomsText v c.atoms)).append (spelled_words _)
  exact (hbody.append (spelled_joinWith_empty fun a _ => a.spelled_nestedClause v)).dropLineBreaks

end Clause

namespace Listing

def shown (v : View) (l : Listing) : List Entry :=
  l.entries.filter fun e => e.written v ≠ ""

def tokens (v : View) (l : Listing) : List Token :=
  if l.shown v = [] then words (l.frame.write [])
  else
    words l.frame.opening ++ joinTokens (words ", ") ((l.shown v).map (Entry.tokens v)) ++
      words l.frame.closing

theorem spelled_written {v : View} {l : Listing}
    (h : ∀ e ∈ l.entries, Spelled (e.written v) (e.tokens v)) :
    Spelled (l.written v) (l.tokens v) := by
  have hitems : ((l.entries.map (Entry.written v)).filter fun s => s ≠ "") =
      (l.shown v).map (Entry.written v) := by
    rw [shown, List.filter_map]
    rfl
  rw [written, hitems, tokens]
  refine Spelled.dropLineBreaks ?_
  by_cases hempty : l.shown v = []
  · rw [if_pos hempty, hempty]
    exact spelled_words _
  · rw [if_neg hempty, Frame.write_of_ne_nil (by simpa using hempty)]
    refine ((spelled_words _).append (spelled_joinWith (fun e he => ?_) _)).append (spelled_words _)
    exact h e (List.mem_filter.1 he).1

end Listing

namespace Block

def tokens (v : View) : Block → List Token
  | .text _ _ s => words s
  | .listing l => l.tokens v
  | .clause c => c.tokens v

end Block

def Outline.tokens (s : Outline) (v : View) : List Token :=
  (s.blocks.map (Block.tokens v)).foldl appendTokens []

/-! ## What has tokens of its own -/

/-- An entry that is written as it is known: a column, or a parameter that does not wait for
columns. -/
def Entry.Settled : Entry → Prop
  | .column _ _ => True
  | .parameter _ p => ∃ x, p.held? = some x

def Block.Settled : Block → Prop
  | .text .. => True
  | .listing l => ∀ e ∈ l.entries, e.Settled
  | .clause c => c.tag = .fromClause → c.atoms = []

theorem Entry.spelled_written {v : View} {e : Entry} (he : e.Settled) :
    Spelled (e.written v) (e.tokens v) := by
  cases e with
  | column _ f => exact spelled_words _
  | parameter _ p =>
    obtain ⟨x, hx⟩ := he
    rw [written, Parameter.render_value hx, tokens, hx]
    exact (spelled_words _).append (Value.spelled_written _ _ _)

theorem Block.spelled_written {v : View} {b : Block} (hb : b.Settled) :
    Spelled (b.written v) (b.tokens v) := by
  cases b with
  | text => exact spelled_words _
  | listing l => exact Listing.spelled_written fun e he => Entry.spelled_written (hb e he)
  | clause c => exact c.spelled_written v

theorem spelled_fragments {v : View} {bs : List Block} (hbs : ∀ b ∈ bs, b.Settled) {sql : String}
    {ts : List Token} (hsql : sql.toList = ts.flatMap Token.spell) :
    ((bs.map (Block.piece v)).foldl
        (fun sql p => appendFragment sql (dropLineBreaks p.text)) sql).toList =
      ((bs.map (Block.tokens v)).foldl appendTokens ts).flatMap Token.spell := by
  induction bs generalizing sql ts with
  | nil => exact hsql
  | cons b bs ih =>
    exact ih (fun b' h => hbs b' (List.mem_cons_of_mem _ h))
      (toList_appendFragment hsql (Block.spelled_written (hbs b List.mem_cons_self)))

/-- The statement of an outline is spelled as the tokens of its blocks. -/
theorem Outline.toList_sql {s : Outline} (hs : s.Each Block.Settled) (c : Compiler) :
    (s.sql c).toList = (s.tokens (s.view c)).flatMap Token.spell :=
  spelled_fragments hs rfl

/-! ## What keeps literals apart -/

def ColumnRef.Clean (f : ColumnRef) : Prop :=
  Text.Clean f.field ∧ (∀ s ∈ f.resultAlias, Text.Clean s) ∧ (∀ s ∈ f.entity, Text.Clean s) ∧
    ∀ s ∈ f.tableAlias, Text.Clean s

def Parameter.Clean (p : Parameter) : Prop :=
  (∀ s ∈ p.name, Text.Clean s) ∧ ∃ x, p.held? = some x ∧ x.Clean

def Operand.Clean : Operand → Prop
  | .column f => f.Clean
  | .parameter p => ∀ x, p.held? = some x → x.Clean
  | .binary _ left right => left.Clean ∧ right.Clean
  | .nullTest _ tested => tested.Clean

def CleanRow (l : List Atom) : Prop :=
  l = [] ∨ ∃ t : Operand, t.Clean ∧ l = t.row

def Entry.Clean : Entry → Prop
  | .column _ f => f.Clean
  | .parameter _ p => p.Clean

def Block.Clean : Block → Prop
  | .text _ _ s => Text.Clean s
  | .listing l => ∀ e ∈ l.entries, e.Clean
  | .clause c => (∀ s ∈ c.entity, Text.Clean s) ∧ (∀ s ∈ c.tableAlias, Text.Clean s) ∧
      CleanRow c.atoms ∧ (c.tag = .fromClause → c.atoms = []) ∧
      ∀ a ∈ c.additions, CleanRow a.atoms

def View.Clean (v : View) : Prop :=
  ∀ entry ∈ v.aliases, Text.Clean entry.2

variable {v : View}

theorem ColumnRef.clean_render (hv : v.Clean) {f : ColumnRef} (hf : f.Clean) :
    Text.Clean (f.render v) := by
  obtain ⟨hfield, hresult, hentity, halias⟩ := hf
  have hqualifier : ∀ s ∈ f.qualifier? v, Text.Clean s := by
    intro s hs
    rw [qualifier?] at hs
    split_ifs at hs
    · cases ha : f.tableAlias with
      | some a =>
        simp only [ha] at hs halias
        exact halias s hs
      | none =>
        have hlabel : (f.entity.map fun e => (v.aliases.find? e).getD e) = some s := by
          simpa [ha] using hs
        obtain ⟨e, he, rfl⟩ := Option.map_eq_some_iff.1 hlabel
        cases hfind : v.aliases.find? e with
        | none => exact hentity e he
        | some a =>
          obtain ⟨l, r, haliases, -⟩ := List.lookup_eq_some_iff.1 hfind
          exact hv (e, a) (by rw [haliases]; simp)
    · cases hs
  have hcolumn : Text.Clean (match f.qualifier? v with
      | some q => q ++ "." ++ f.field
      | none => f.field) := by
    cases hq : f.qualifier? v with
    | none => exact hfield
    | some q => exact ((hqualifier q hq).append (by decide)).append hfield
  rw [render]
  cases hr : f.resultAlias with
  | none => exact hcolumn
  | some name =>
    simp only
    split_ifs
    · exact hcolumn
    · exact (hcolumn.append (by decide)).append (hresult name hr)

theorem rowTokens_append (l m : List Atom) :
    rowTokens v (l ++ m) = rowTokens v l ++ rowTokens v m :=
  List.flatMap_append

theorem lawful_row (hv : v.Clean) {t : Operand} (ht : t.Clean) :
    Lawful (rowTokens v t.row) := by
  have htext (s : String) (l : List Atom) :
      rowTokens v (.text s :: l) = words s ++ rowTokens v l := rfl
  induction t with
  | column f =>
    rw [Operand.row, rowTokens, List.flatMap_singleton]
    exact lawful_words (f.clean_render hv ht)
  | parameter p =>
    obtain ⟨source, _, _⟩ := p
    cases source with
    | value x =>
      have h : Lawful (x.tokens v.dialect none) := Value.lawful_tokens (ht x rfl)
      simpa [Operand.row, Parameter.atom?, rowTokens, Atom.tokens] using h
    | deferred d =>
      have h : Lawful (d.result.tokens v.dialect none) := Value.lawful_tokens (ht d.result rfl)
      simpa [Operand.row, Parameter.atom?, rowTokens, Atom.tokens] using h
    | expr => exact lawful_nil
  | binary op left right ihl ihr =>
    have hspaced : Text.Clean (dropLineBreaks op.spaced) ∧ dropLineBreaks op.spaced ≠ "" := by
      cases op <;> decide
    have hinner := (ihl ht.1).append_plain (ihr ht.2) hspaced.1 hspaced.2
    have h := Lawful.words_append (s := "(")
      (hinner.append_words (s := ")") (by decide)) (by decide)
    simp only [Operand.row, htext, rowTokens_append]
    simpa [words, rowTokens, Atom.tokens] using h
  | nullTest expected tested ih =>
    have htest : Text.Clean (nullTestText expected) := by cases expected <;> decide
    have h := Lawful.words_append (s := "(")
      (((ih ht).append_words htest).append_words (s := ")") (by decide)) (by decide)
    simp only [Operand.row, htext, rowTokens_append]
    simpa [words, rowTokens, Atom.tokens] using h

theorem CleanRow.lawful (hv : v.Clean) {l : List Atom} (hl : CleanRow l) :
    Lawful (rowTokens v l) := by
  obtain rfl | ⟨t, ht, rfl⟩ := hl
  · exact lawful_nil
  · exact lawful_row hv ht

theorem Parameter.clean_prefixText {p : Parameter} (hp : p.Clean) : Text.Clean p.prefixText := by
  obtain ⟨source, name, declared⟩ := p
  cases name with
  | none => exact (by decide : Text.Clean "")
  | some name =>
    simp only [prefixText]
    split_ifs
    · decide
    · exact (hp.1 name rfl).append (by decide)

theorem Entry.lawful_tokens (hv : v.Clean) {e : Entry} (he : e.Clean) : Lawful (e.tokens v) := by
  cases e with
  | column _ f => exact lawful_words (f.clean_render hv he)
  | parameter _ p =>
    obtain ⟨x, hx, hclean⟩ := he.2
    rw [tokens, hx]
    exact (Value.lawful_tokens hclean).words_append (Parameter.clean_prefixText he)

theorem Addition.clean_around (j : Joint) :
    Text.Clean (around j).1 ∧ dropLineBreaks (around j).1 ≠ "" ∧ Text.Clean (around j).2 := by
  cases j <;> decide

theorem lawful_append_additions (hv : v.Clean) {ts : List Token} (ht : Lawful ts)
    {additions : List Addition} (h : ∀ a ∈ additions, CleanRow a.atoms) :
    Lawful (ts ++ additions.flatMap (Addition.tokens v)) := by
  induction additions generalizing ts with
  | nil => simpa using ht
  | cons a additions ih =>
    obtain ⟨hopen, hne, hclose⟩ := Addition.clean_around a.joint
    have hrow := (h a List.mem_cons_self).lawful hv
    have hfirst := (ht.append_plain hrow hopen.dropLineBreaks hne).append_words hclose
    have hall := ih hfirst fun b hb => h b (List.mem_cons_of_mem _ hb)
    rw [List.flatMap_cons, Addition.tokens]
    simpa only [words, List.append_assoc] using hall

theorem clean_aroundBody (tag : Tag) {source : String} (hsource : Text.Clean source) :
    Text.Clean (aroundBody tag source).1 ∧ Text.Clean (aroundBody tag source).2 := by
  have hjoin (word : String) (hword : Text.Clean word) : Text.Clean (word ++ source ++ " ON ") :=
    (hword.append hsource).append (by decide)
  unfold aroundBody
  split
  case h_1 | h_2 | h_3 | h_4 => exact ⟨hjoin _ (by decide), show Text.Clean "" by decide⟩
  all_goals decide

namespace Clause

variable {c : Clause}

theorem clean_source (hc : (Block.clause c).Clean) : Text.Clean c.source := by
  obtain ⟨hentity, halias, -⟩ := hc
  rw [source]
  cases he : c.entity with
  | none => exact (by decide : Text.Clean "")
  | some entity =>
    have hclean := hentity entity he
    cases ha : c.tableAlias with
    | none => exact hclean
    | some a => exact (hclean.append (by decide)).append (halias a ha)

theorem lawful_tokens (hv : v.Clean) (hc : (Block.clause c).Clean) : Lawful (c.tokens v) := by
  obtain ⟨-, -, hatoms, -, hadditions⟩ := id hc
  refine lawful_append_additions hv ?_ hadditions
  rw [bodyTokens]
  split_ifs
  · exact lawful_words (Text.Clean.append (by decide) (clean_source hc))
  · obtain ⟨hopen, hclose⟩ := clean_aroundBody c.tag (clean_source hc)
    exact ((hatoms.lawful hv).words_append hopen).append_words hclose

end Clause

theorem Tag.clean_frame {tag : Tag} {frame : Frame} (h : tag.frame? = some frame) :
    Text.Clean frame.opening ∧ Text.Clean frame.closing := by
  unfold frame? at h
  split at h
  case h_7 => cases h
  all_goals
    cases h
    decide

theorem Listing.clean_frame (l : Listing) :
    Text.Clean l.frame.opening ∧ Text.Clean l.frame.closing :=
  Tag.clean_frame (Option.some_get l.opensList).symm

theorem Listing.lawful_tokens (hv : v.Clean) {l : Listing} (hl : ∀ e ∈ l.entries, e.Clean) :
    Lawful (l.tokens v) := by
  obtain ⟨hopen, hclose⟩ := l.clean_frame
  have hitems : ∀ ts ∈ (l.shown v).map (Entry.tokens v), Lawful ts := by
    intro ts hts
    obtain ⟨e, he, rfl⟩ := List.mem_map.1 hts
    exact Entry.lawful_tokens hv (hl e (List.mem_filter.1 he).1)
  rw [tokens]
  split_ifs
  · rw [Frame.write]
    split_ifs
    · exact lawful_words hopen
    · exact lawful_words (hopen.append hclose)
  · exact ((lawful_joinTokens hitems (by decide) (by decide)).words_append hopen).append_words hclose

theorem Block.lawful_tokens (hv : v.Clean) {b : Block} (hb : b.Clean) : Lawful (b.tokens v) := by
  cases b with
  | text => exact lawful_words hb
  | listing l => exact l.lawful_tokens hv hb
  | clause c => exact c.lawful_tokens hv hb

theorem lawful_fragments {bs : List Block} (hv : v.Clean) (hbs : ∀ b ∈ bs, b.Clean)
    {ts : List Token} (ht : Lawful ts) :
    Lawful ((bs.map (Block.tokens v)).foldl appendTokens ts) := by
  induction bs generalizing ts with
  | nil => exact ht
  | cons b bs ih =>
    exact ih (fun b' h => hbs b' (List.mem_cons_of_mem _ h))
      (lawful_appendTokens ht (Block.lawful_tokens hv (hbs b List.mem_cons_self)))

theorem Entry.Clean.settled {e : Entry} (he : e.Clean) : e.Settled := by
  cases e with
  | column => exact trivial
  | parameter =>
    obtain ⟨-, x, hx, -⟩ := he
    exact ⟨x, hx⟩

theorem Block.Clean.settled {b : Block} (hb : b.Clean) : b.Settled := by
  cases b with
  | text => exact trivial
  | listing => exact fun e he => (hb e he).settled
  | clause => exact hb.2.2.2.1

/-- Blocks and aliases without apostrophes but in what is quoted. -/
structure Outline.Clean (s : Outline) : Prop where
  blocks : ∀ b ∈ s.blocks, b.Clean
  aliases : ∀ entry ∈ s.aliases, Text.Clean entry.2

theorem Outline.Clean.settled {s : Outline} (hs : s.Clean) : s.Each Block.Settled :=
  fun b hb => (hs.blocks b hb).settled

/-- The statement of an outline is read as the tokens of its blocks. -/
theorem Outline.lex_sql {s : Outline} (hs : s.Clean) (c : Compiler) :
    lex (s.sql c) = some (s.tokens (s.view c)) := by
  have hv : (s.view c).Clean := hs.aliases
  exact lex_of_spell (toList_sql hs.settled c) (lawful_fragments hv hs.blocks lawful_nil)

end SqlComposer
