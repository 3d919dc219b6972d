import SqlComposer.Proofs.Outline.Text
import SqlComposer.Proofs.Part.Stray
import SqlComposer.Proofs.Tree.Renamed

/-!
# Statements as spaced fragments

A statement is written from left to right, and whether a space comes next is decided by the last
character so far. What is written is one line that depends on neighbours only: the texts of the
top-level parts that say anything, with a space wherever two words would touch.
-/
namespace SqlComposer

namespace Text

/-- What stands between two neighbours: nothing behind a blank or an opening bracket or ahead of a
closing one, and otherwise one space. -/
def gap (left right : String) : String :=
  if right.toList.head? = some ')' then "" else gapBehind left

def spaced : List String → String
  | [] => ""
  | [s] => s
  | s :: t :: rest => s ++ gap s t ++ spaced (t :: rest)

variable {s t : String} {l : List String}

theorem appendFragment_gap_eq (s : String) (ht : t ≠ "") :
    appendFragment s t = s ++ gap s t ++ t := by
  obtain ⟨c, hc⟩ : ∃ c, t.toList.head? = some c :=
    Option.ne_none_iff_exists'.1 fun h => ht (String.toList_eq_nil_iff.1 (List.head?_eq_none_iff.1 h))
  by_cases hbracket : c = ')'
  · have hspace : needsSpace s t = false := by
      rw [needsSpace, hc, hbracket]
      cases s.toList.getLast? <;> simp
    rw [appendFragment, if_neg ht, hspace, gap, hc, hbracket, if_pos rfl, String.append_empty]
    rfl
  · rw [appendFragment_word hc hbracket, gap, hc, if_neg fun h => hbracket (Option.some.inj h)]

theorem gap_append (front : String) (hs : s ≠ "") : gap (front ++ s) t = gap s t := by
  obtain ⟨c, hc⟩ : ∃ c, s.toList.getLast? = some c :=
    Option.ne_none_iff_exists'.1 fun h => hs (String.toList_eq_nil_iff.1 (List.getLast?_eq_none_iff.1 h))
  have hlast : (front ++ s).toList.getLast? = some c := by
    rw [String.toList_append, List.getLast?_append, hc, Option.some_or]
  rw [gap, gap, gapBehind_of_getLast? hlast, gapBehind_of_getLast? hc]

theorem foldl_appendFragment (front : String) (hs : s ≠ "") (hl : ∀ t ∈ l, t ≠ "") :
    l.foldl appendFragment (front ++ s) = front ++ spaced (s :: l) := by
  induction l generalizing front s with
  | nil => rfl
  | cons t l ih =>
    rw [List.forall_mem_cons] at hl
    rw [List.foldl_cons, appendFragment_gap_eq _ hl.1, gap_append front hs, ih _ hl.1 hl.2, spaced]
    simp only [String.append_assoc]

theorem joinFragments_eq_spaced (l : List String) :
    joinFragments l = spaced ((l.map dropLineBreaks).filter fun s => s ≠ "") := by
  have hskip : joinFragments l =
      ((l.map dropLineBreaks).filter fun s => s ≠ "").foldl appendFragment "" := by
    rw [joinFragments, ← List.foldl_map, List.foldl_filter]
    refine congrArg (fun f => List.foldl f "" _) (funext fun sql => funext fun s => ?_)
    by_cases hs : s = "" <;> simp [appendFragment, hs]
  have hne : ∀ s ∈ (l.map dropLineBreaks).filter (fun s => s ≠ ""), s ≠ "" := fun s hs => by
    simpa using (List.mem_filter.1 hs).2
  rw [hskip]
  cases hlist : (l.map dropLineBreaks).filter fun s => s ≠ "" with
  | nil => rfl
  | cons s rest =>
    rw [hlist, List.forall_mem_cons] at hne
    rw [List.foldl_cons, empty_appendFragment]
    simpa only [String.empty_append] using foldl_appendFragment "" hne.1 hne.2

theorem oneLine_dropLineBreaks (s : String) : OneLine (dropLineBreaks s) := by
  intro c hc
  rw [toList_dropLineBreaks] at hc
  simpa using (List.mem_filter.1 hc).2

theorem oneLine_gap (s t : String) : OneLine (gap s t) := by
  rw [gap]
  split_ifs
  · decide
  · obtain h | h := gapBehind_eq_or s <;> rw [h] <;> decide

theorem oneLine_spaced (hl : ∀ s ∈ l, OneLine s) : OneLine (spaced l) := by
  induction l with
  | nil => exact nofun
  | cons s l ih =>
    rw [List.forall_mem_cons] at hl
    cases l with
    | nil => exact hl.1
    | cons t l => exact (hl.1.append (oneLine_gap s t)).append (ih hl.2)

theorem oneLine_joinFragments (l : List String) : OneLine (joinFragments l) := by
  rw [joinFragments_eq_spaced]
  refine oneLine_spaced fun s hs => ?_
  obtain ⟨t, -, rfl⟩ := List.mem_map.1 (List.mem_of_mem_filter hs)
  exact oneLine_dropLineBreaks t

end Text

namespace Part

variable {v w : View}

theorem forall₂_of_renderAll {ps : List Part} {pieces : List Piece}
    (h : (renderAll v ps).outcome = .ok pieces) :
    List.Forall₂ (fun p s => (p.render v).outcome = .ok s) ps (pieces.map Piece.text) := by
  induction ps generalizing pieces with
  | nil =>
    cases h
    exact .nil
  | cons p ps ih =>
    rw [renderAll] at h
    obtain ⟨s, hs, h⟩ := Rendering.outcome_bind_eq_ok h
    obtain ⟨rest, hrest, h⟩ := Rendering.outcome_bind_eq_ok h
    cases h
    exact .cons hs (ih hrest)

theorem not_late {head : Head} {content : Leaf} (hp : (Part.leaf head content).isLate = false) :
    ∀ emit, content = .late emit → emit w = emit v := by
  rintro emit rfl
  cases hp

mutual

theorem render_agrees (h : v.Agrees w) (hlast : w.lastTableItem = v.lastTableItem) : (p : Part) →
    (∀ q ∈ p.flatten, q.isLate = false) → p.render w = p.render v
  | .leaf head content, hp =>
    congrArg ExceptT.lift (Leaf.render_agrees h rfl (itemSeparator_congr hlast head.key)
      (not_late (hp _ List.mem_cons_self)))
  | .group head .list children _, hp => by
    have hchildren := renderAll_agrees h hlast children fun q hq => hp q (List.mem_cons_of_mem _ hq)
    rw [render, render, hchildren]
  | .group head (.clause entity tableAlias) children _, hp => by
    have hchildren := renderAll_agrees h hlast children fun q hq => hp q (List.mem_cons_of_mem _ hq)
    rw [render, render, hchildren]

theorem renderAll_agrees (h : v.Agrees w) (hlast : w.lastTableItem = v.lastTableItem) :
    (ps : List Part) → (∀ q ∈ flattenAll ps, q.isLate = false) → renderAll w ps = renderAll v ps
  | [], _ => rfl
  | p :: ps, hps => by
    have hhead := render_agrees h hlast p fun q hq => hps q (List.mem_append_left _ hq)
    have hrest := renderAll_agrees h hlast ps fun q hq => hps q (List.mem_append_right _ hq)
    rw [renderAll, renderAll, hhead, hrest]

end

end Part

namespace Compiler

variable {t : Tree} {compiled : Compiled}

theorem outcome_sql (c : Compiler) (ht : t.shape = .statement) :
    (c.sql t).outcome =
      (Part.renderAll (t.view c.dialect c.qualify) t.parts).outcome.map joinPieces := by
  rw [sql, ht]
  change (c.statementSql t).outcome = _
  rw [statementSql, Rendering.outcome_bind]
  cases (Part.renderAll (t.view c.dialect c.qualify) t.parts).outcome <;> rfl

theorem exists_fragments (c : Compiler) (ht : t.shape = .statement)
    (h : (c.compile t).outcome = .ok compiled) :
    ∃ texts, List.Forall₂ (fun p s => (p.render (t.view c.dialect c.qualify)).outcome = .ok s)
        t.parts texts ∧
      compiled.sql = Text.joinFragments texts := by
  have hsql := c.outcome_compile t
  rw [h, outcome_sql c ht] at hsql
  cases hpieces : (Part.renderAll (t.view c.dialect c.qualify) t.parts).outcome with
  | error f =>
    rw [hpieces] at hsql
    cases hsql
  | ok pieces =>
    rw [hpieces] at hsql
    refine ⟨pieces.map Piece.text, Part.forall₂_of_renderAll hpieces, ?_⟩
    rw [← joinPieces_eq_joinFragments]
    exact Except.ok.inj hsql

theorem joinPieces_skip {s : String} (hs : Text.dropLineBreaks s = "") (isGroup : Bool)
    (front back : List Piece) :
    joinPieces (front ++ ⟨s, isGroup⟩ :: back) = joinPieces (front ++ back) := by
  rw [joinPieces, joinPieces, List.foldl_append, List.foldl_append, List.foldl_cons, hs]
  rfl

end Compiler

section

variable {t : Tree} {l r : List Part} {head : Head} {s : String}

theorem Tree.flatten_insert (t : Tree) (l r : List Part) (head : Head) (s : String) :
    Tree.flatten { t with parts := l ++ .leaf head (.text s) :: r } =
      Part.flattenAll l ++ .leaf head (.text s) :: Part.flattenAll r := by
  rw [flatten, Part.flattenAll_append, Part.flattenAll, Part.flatten, List.singleton_append]

theorem Tree.flatten_of_parts (hparts : t.parts = l ++ r) :
    t.flatten = Part.flattenAll l ++ Part.flattenAll r := by
  rw [flatten, hparts, Part.flattenAll_append]

theorem Tree.lastTableItem_insert (hparts : t.parts = l ++ r) (hplain : head.tag = .plain)
    (s : String) (dialect : Dialect) (qualify : Bool) :
    (Tree.view { t with parts := l ++ .leaf head (.text s) :: r } dialect qualify).lastTableItem =
      (t.view dialect qualify).lastTableItem := by
  have hitem : ¬(Part.leaf head (.text s)).tag.isTableItem = true := by
    rw [Part.tag, Part.head, hplain]
    exact Bool.false_ne_true
  refine lastTableItem_congr ?_ dialect qualify
  rw [flatten_insert, flatten_of_parts hparts, List.filter_append, List.filter_append,
    List.filter_cons_of_neg (p := fun p : Part => p.tag.isTableItem) hitem]

theorem Tree.not_late_insert (hparts : t.parts = l ++ r)
    (hlate : ∀ p ∈ t.flatten, p.isLate = false) (head : Head) (s : String) :
    ∀ p ∈ Part.flattenAll (l ++ .leaf head (.text s) :: r), p.isLate = false := by
  intro p hp
  rw [flatten_of_parts hparts] at hlate
  rw [Part.flattenAll_append, List.mem_append, Part.flattenAll, Part.flatten, List.singleton_append,
    List.mem_cons] at hp
  rcases hp with hp | rfl | hp
  · exact hlate p (List.mem_append_left _ hp)
  · rfl
  · exact hlate p (List.mem_append_right _ hp)

theorem Part.outcome_renderAll_insert (v : View) (l r : List Part) (hplain : head.tag = .plain)
    (s : String) :
    (renderAll v (l ++ .leaf head (.text s) :: r)).outcome =
      (do return (← (renderAll v l).outcome) ++ ⟨s, false⟩ :: (← (renderAll v r).outcome)) := by
  have hrender : (Part.render v (.leaf head (.text s))).outcome = .ok s := by
    obtain ⟨key, _, id⟩ := head
    cases hplain
    rfl
  rw [outcome_renderAll_append, renderAll, Rendering.outcome_bind, hrender]
  cases (renderAll v l).outcome <;> cases h : (renderAll v r).outcome <;> simp [h] <;> rfl

/-- A text of line breaks only can be put in among parts of which none is made late. -/
theorem Compiler.outcome_sql_insert (c : Compiler) (ht : t.shape = .statement)
    (hparts : t.parts = l ++ r) (hlate : ∀ p ∈ t.flatten, p.isLate = false)
    (hplain : head.tag = .plain) (hs : Text.dropLineBreaks s = "") :
    (c.sql { t with parts := l ++ .leaf head (.text s) :: r }).outcome = (c.sql t).outcome := by
  have hrender := Part.renderAll_agrees (v := t.view c.dialect c.qualify)
    (w := Tree.view { t with parts := l ++ .leaf head (.text s) :: r } c.dialect c.qualify)
    ⟨rfl, rfl, fun _ => rfl⟩ (Tree.lastTableItem_insert hparts hplain s c.dialect c.qualify) _
    (Tree.not_late_insert hparts hlate head s)
  have ht' : Tree.shape { t with parts := l ++ .leaf head (.text s) :: r } = .statement := ht
  rw [outcome_sql c ht', outcome_sql c ht, hrender, hparts, Part.outcome_renderAll_insert _ l r hplain,
    Part.outcome_renderAll_append]
  cases (Part.renderAll (t.view c.dialect c.qualify) l).outcome with
  | error => rfl
  | ok front =>
    cases (Part.renderAll (t.view c.dialect c.qualify) r).outcome with
    | error => rfl
    | ok back => exact congrArg Except.ok (joinPieces_skip hs false front back)

end

/-- A statement that compiles has no line break and is the texts of its top-level parts, without
their line breaks and without those that say nothing then, in order, with the gaps that each two
neighbours ask for. So a text of line breaks only can stand anywhere at the top of a statement of
which nothing is made late. -/
theorem statements_are_spaced (c : Compiler) {t : Tree} (ht : t.shape = .statement) :
    (∀ compiled, (c.compile t).outcome = .ok compiled →
      Text.OneLine compiled.sql ∧
        ∃ texts, List.Forall₂
            (fun p s => (p.render (t.view c.dialect c.qualify)).outcome = .ok s) t.parts texts ∧
          compiled.sql = Text.spaced ((texts.map Text.dropLineBreaks).filter fun s => s ≠ "")) ∧
    ((∀ p ∈ t.flatten, p.isLate = false) → ∀ (l r : List Part) (head : Head) (s : String),
      t.parts = l ++ r → head.tag = .plain → (∀ ch ∈ s.toList, Text.isLineBreak ch = true) →
      (c.compile { t with parts := l ++ .leaf head (.text s) :: r }).outcome.map Compiled.sql =
        (c.compile t).outcome.map Compiled.sql) := by
  constructor
  · intro compiled h
    obtain ⟨texts, htexts, hsql⟩ := c.exists_fragments ht h
    rw [hsql]
    exact ⟨Text.oneLine_joinFragments texts, texts, htexts, Text.joinFragments_eq_spaced texts⟩
  · intro hlate l r head s hparts hplain hs
    have hempty : Text.dropLineBreaks s = "" := by
      rw [← String.toList_eq_nil_iff, Text.toList_dropLineBreaks]
      exact List.filter_eq_nil_iff.2 fun ch hch => by simp [hs ch hch]
    rw [Compiler.outcome_compile, Compiler.outcome_compile]
    exact c.outcome_sql_insert ht hparts hlate hplain hempty

def Tree.noted : Tree where
  parts :=
    [.text 1 .createTable "CREATE TABLE Note (\n", .column 2 { name := "Id", columnType := .int },
      .text 3 .plain "\r\n", .tableKey 4 "Id" "PRIMARY KEY\n(Id)", .text 5 .plain ")",
      .text 6 .plain "STRICT"]

theorem statements_are_spaced_noted :
    Tree.noted.shape = .statement ∧ (∀ p ∈ Tree.noted.flatten, p.isLate = false) ∧
      ∃ compiled, (Compiler.compile {} Tree.noted).outcome = .ok compiled ∧
        Text.OneLine compiled.sql ∧
        (Compiler.compile {} { Tree.noted with
            parts := Tree.noted.parts.take 4 ++ .text 7 .plain "\n" :: Tree.noted.parts.drop 4
          }).outcome.map Compiled.sql = .ok compiled.sql := by
  have hlate : ∀ p ∈ Tree.noted.flatten, p.isLate = false := by
    rintro p (_ | ⟨_, _ | ⟨_, _ | ⟨_, _ | ⟨_, _ | ⟨_, _ | ⟨_, ⟨⟩⟩⟩⟩⟩⟩⟩) <;> rfl
  obtain ⟨compiled, hcompiled⟩ :=
    Rendering.fault?_eq_none.1 ((Compiler.fault?_compile {} (t := .noted) rfl).trans rfl)
  obtain ⟨hall, hinsert⟩ := statements_are_spaced {} (t := .noted) rfl
  have hbreak : ∀ ch ∈ "\n".toList, Text.isLineBreak ch = true := by simp [Text.isLineBreak]
  refine ⟨rfl, hlate, compiled, hcompiled, (hall compiled hcompiled).1, ?_⟩
  rw [Part.text, hinsert hlate _ _ _ _ (List.take_append_drop 4 _).symm rfl hbreak, hcompiled]
  rfl

example : (Compiler.compile {} Tree.noted).result?.map Compiled.sql =
    some "CREATE TABLE Note (Id int, PRIMARY KEY(Id)) STRICT" := by decide +kernel

end SqlComposer
