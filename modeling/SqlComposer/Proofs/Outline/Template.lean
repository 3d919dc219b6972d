import SqlComposer.Proofs.Outline.Literals
import SqlComposer.Proofs.Text.Joined

/-!
# What the dialects write alike

Under every dialect an outline is spelled from one template: tokens that all dialects share, and
timestamps, of which each dialect writes the fields alike and only the character between date and
time in its own way. The timestamps of the template are those that the outline holds, in order.
-/
namespace SqlComposer

open Text Calendar

/-! ## Timestamps -/

namespace Calendar

theorem inert_padded (width n : Nat) : Inert (padded width n) := by
  have hdigit : ∀ c : Char, c.isDigit = true → c ≠ '\'' ∧ isLineBreak c = false := by
    intro c hc
    refine ⟨?_, Bool.eq_false_iff.2 fun hbreak => ?_⟩
    · rintro rfl
      cases hc
    · obtain hbreak | hbreak := Bool.or_eq_true_iff.1 hbreak <;> rw [beq_iff_eq] at hbreak <;>
        cases hbreak <;> cases hc
  intro c hc
  rw [padded, String.toList_ofList, List.mem_append] at hc
  obtain hc | hc := hc
  · rw [List.eq_of_mem_replicate hc]
    decide
  · exact hdigit c (Nat.isDigit_of_mem_toDigits (by decide) (by decide) hc)

theorem inert_yearText (year : Int) : Inert (yearText year) := by
  rw [yearText]
  split_ifs
  · exact inert_padded 4 _
  · exact Inert.append (by decide) (inert_padded 4 _)
  · exact Inert.append (by decide) (inert_padded 4 _)

theorem inert_text (d : Date) : Inert d.text :=
  ((((inert_yearText d.year).append (by decide)).append (inert_padded 2 _)).append
    (by decide)).append (inert_padded 2 _)

theorem inert_timeText (t : Timestamp) : Inert t.timeText :=
  ((((inert_padded 2 _).append (by decide)).append (inert_padded 2 _)).append
    (by decide)).append (inert_padded 2 _)

theorem inert_timestamp (t : Timestamp) (d : Dialect) : Inert (t.text d.timestampSeparator) := by
  have hseparator : Inert (String.singleton d.timestampSeparator) := by cases d <;> decide
  exact ((inert_text t.date).append hseparator).append (inert_timeText t)

end Calendar

/-! ## Templates -/

/-- A stretch of a template: a token that all dialects share, or the literal of a timestamp. -/
inductive Stretch where
  | token (t : Token)
  | stamp (t : Timestamp)

namespace Stretch

def stamp? : Stretch → Option Timestamp
  | token _ => none
  | stamp t => some t

def spell (d : Dialect) : Stretch → List Char
  | token t => t.spell
  | stamp t =>
    '\'' :: (t.date.text.toList ++ d.timestampSeparator :: t.timeText.toList ++ ['\''])

def tokenIn (d : Dialect) : Stretch → Token
  | token t => t
  | stamp t => .literal (t.text d.timestampSeparator)

theorem spell_tokenIn (d : Dialect) (x : Stretch) : (x.tokenIn d).spell = x.spell d := by
  cases x with
  | token => rfl
  | stamp t =>
    have hclean : '\'' ∉ (t.text d.timestampSeparator).toList := fun hmem =>
      (inert_timestamp t d _ hmem).1 rfl
    rw [tokenIn, Token.spell, doubled_of_notMem hclean, spell, Timestamp.text]
    simp

theorem last_tokenIn (d d' : Dialect) (x : Stretch) : (x.tokenIn d).last = (x.tokenIn d').last := by
  cases x <;> rfl

theorem tokenIn_eq_char (d d' : Dialect) (x : Stretch) (c : Char) :
    x.tokenIn d = .char c ↔ x.tokenIn d' = .char c := by
  cases x <;> simp [tokenIn]

end Stretch

/-- Rows of tokens, one for each dialect, that come from one template with these timestamps. -/
def Templated (rows : Dialect → List Token) (stamps : List Timestamp) : Prop :=
  ∃ template : List Stretch, template.filterMap Stretch.stamp? = stamps ∧
    ∀ d, rows d = template.map (Stretch.tokenIn d)

namespace Templated

variable {α : Type} {rows rows' : Dialect → List Token} {stamps stamps' : List Timestamp}

theorem same (ts : List Token) : Templated (fun _ => ts) [] :=
  ⟨ts.map .token, by simp [Stretch.stamp?], fun d => by
    rw [List.map_map]
    exact (List.map_id ts).symm⟩

theorem append (h : Templated rows stamps) (h' : Templated rows' stamps') :
    Templated (fun d => rows d ++ rows' d) (stamps ++ stamps') := by
  obtain ⟨template, rfl, hrows⟩ := h
  obtain ⟨template', rfl, hrows'⟩ := h'
  exact ⟨template ++ template', List.filterMap_append, fun d => by
    simp only [hrows, hrows', List.map_append]⟩

theorem between (h : Templated rows stamps) (front back : List Token) :
    Templated (fun d => front ++ rows d ++ back) stamps := by
  have hall := ((same front).append h).append (same back)
  rwa [List.nil_append, List.append_nil] at hall

theorem flatMap {row : Dialect → α → List Token} {stamps : α → List Timestamp} {l : List α}
    (h : ∀ a ∈ l, Templated (fun d => row d a) (stamps a)) :
    Templated (fun d => l.flatMap (row d)) (l.flatMap stamps) := by
  induction l with
  | nil => exact same []
  | cons a l ih =>
    rw [List.forall_mem_cons] at h
    simp only [List.flatMap_cons]
    exact h.1.append (ih h.2)

theorem joinTokens {row : Dialect → α → List Token} {stamps : α → List Timestamp} {l : List α}
    (h : ∀ a ∈ l, Templated (fun d => row d a) (stamps a)) (separator : List Token) :
    Templated (fun d => Text.joinTokens separator (l.map (row d))) (l.flatMap stamps) := by
  induction l with
  | nil => exact same []
  | cons a l ih =>
    rw [List.forall_mem_cons] at h
    simp only [List.map_cons, joinTokens_cons, List.map_eq_nil_iff, List.flatMap_cons]
    split_ifs with hl
    · rw [hl, List.flatMap_nil, List.append_nil]
      exact h.1
    · have hjoined := (h.1.append (same separator)).append (ih h.2)
      rwa [List.append_nil] at hjoined

theorem needsSpaceToken_eq (d d' : Dialect) (template template' : List Stretch) :
    needsSpaceToken (template.map (Stretch.tokenIn d)) (template'.map (Stretch.tokenIn d)) =
      needsSpaceToken (template.map (Stretch.tokenIn d')) (template'.map (Stretch.tokenIn d')) := by
  have hhead : ((template'.map (Stretch.tokenIn d)).head? != some (.char ')')) =
      ((template'.map (Stretch.tokenIn d')).head? != some (.char ')')) := by
    cases template' with
    | nil => rfl
    | cons x =>
      rw [Bool.eq_iff_iff]
      simp [x.tokenIn_eq_char d d']
  rw [needsSpaceToken, needsSpaceToken, hhead, List.getLast?_map, List.getLast?_map]
  cases template.getLast? with
  | none => rfl
  | some x => simp only [Option.map_some, x.last_tokenIn d d']

theorem appendTokens (h : Templated rows stamps) (h' : Templated rows' stamps') :
    Templated (fun d => Text.appendTokens (rows d) (rows' d)) (stamps ++ stamps') := by
  obtain ⟨template, rfl, hrows⟩ := h
  obtain ⟨template', rfl, hrows'⟩ := h'
  simp only [Text.appendTokens, hrows, hrows', List.map_eq_nil_iff,
    fun d => needsSpaceToken_eq d default template template']
  split_ifs with hnil
  · exact ⟨template, by simp [hnil], fun d => rfl⟩
  · exact ⟨template ++ .token (.char ' ') :: template', List.filterMap_append, fun d => by
      simp [Stretch.tokenIn]⟩
  · exact ⟨template ++ template', List.filterMap_append, fun d => List.map_append.symm⟩

end Templated

/-! ## Outlines -/

def Value.timestamp? : Value → Option Timestamp
  | .dateTime t => some t
  | _ => none

theorem Value.eq_dateTime {x : Value} {t : Timestamp} (h : x.timestamp? = some t) :
    x = .dateTime t := by
  cases x <;> cases h
  rfl

def timestamps (values : List Value) : List Timestamp :=
  values.filterMap Value.timestamp?

theorem timestamps_append (xs ys : List Value) :
    timestamps (xs ++ ys) = timestamps xs ++ timestamps ys :=
  List.filterMap_append

theorem timestamps_filterMap {α : Type} (held? : α → Option Value) (l : List α) :
    timestamps (l.filterMap held?) = l.flatMap fun a => timestamps (held? a).toList := by
  induction l with
  | nil => rfl
  | cons a l ih =>
    rw [List.filterMap_cons, List.flatMap_cons, ← ih]
    cases held? a with
    | none => rfl
    | some x => exact timestamps_append [x] _

theorem timestamps_flatMap {α : Type} (values : α → List Value) (l : List α) :
    timestamps (l.flatMap values) = l.flatMap fun a => timestamps (values a) :=
  List.filterMap_flatMap ..

def View.inDialect (v : View) (d : Dialect) : View :=
  { v with dialect := d }

variable {v : View}

theorem Dialect.written_eq (d d' : Dialect) {x : Value} (hx : x.timestamp? = none)
    (declared : Option ColumnType) : d.written x declared = d'.written x declared := by
  cases x with
  | dateTime => cases hx
  | null | bool | int | float | decimal | string | date | uuid | raw => rfl

theorem Dialect.quoted?_eq (d d' : Dialect) {x : Value} (hx : x.timestamp? = none) :
    d.quoted? x = d'.quoted? x := by
  cases x with
  | dateTime => cases hx
  | null | bool | int | float | decimal | string | date | uuid | raw => rfl

theorem Value.templated_tokens (declared : Option ColumnType) (x : Value) :
    Templated (fun d => x.tokens d declared) (timestamps [x]) := by
  cases hx : x.timestamp? with
  | none =>
    have htokens (d : Dialect) : x.tokens d declared = x.tokens default declared := by
      rw [tokens, tokens, d.quoted?_eq default hx, d.written_eq default hx]
    rw [show timestamps [x] = [] by simp [timestamps, hx]]
    simp only [htokens]
    exact .same _
  | some t =>
    obtain rfl := Value.eq_dateTime hx
    refine ⟨[.stamp t], rfl, fun d => ?_⟩
    have hline : OneLine (t.text d.timestampSeparator) := fun c hc => (inert_timestamp t d c hc).2
    exact congrArg (fun s => [Token.literal s]) hline.dropLineBreaks_eq

theorem Atom.templated_tokens (a : Atom) :
    Templated (fun d => a.tokens (v.inDialect d)) (timestamps a.held?.toList) := by
  cases a with
  | text s => exact .same (words s)
  | field f => exact .same (words (f.render v))
  | value x => exact x.templated_tokens none
  | deferred d => exact d.result.templated_tokens none

theorem templated_rowTokens (l : List Atom) :
    Templated (fun d => rowTokens (v.inDialect d) l) (timestamps (l.filterMap Atom.held?)) := by
  rw [timestamps_filterMap]
  exact .flatMap fun a _ => a.templated_tokens

theorem Entry.templated_tokens (e : Entry) :
    Templated (fun d => e.tokens (v.inDialect d)) (timestamps e.held?.toList) := by
  cases e with
  | column key f => exact .same (words (f.render v))
  | parameter key p =>
    refine Templated.append (.same (words p.prefixText)) ?_
    rw [held?]
    cases p.held? with
    | none => exact .same []
    | some x => exact x.templated_tokens p.declared

theorem Addition.templated_tokens (a : Addition) :
    Templated (fun d => a.tokens (v.inDialect d)) (timestamps a.values) :=
  (templated_rowTokens a.atoms).between _ _

theorem Clause.templated_tokens {c : Clause} (hc : (Block.clause c).Settled) :
    Templated (fun d => c.tokens (v.inDialect d)) (timestamps (Block.clause c).values) := by
  have hbody : Templated (fun d => c.bodyTokens (v.inDialect d))
      (timestamps (c.atoms.filterMap Atom.held?)) := by
    simp only [bodyTokens]
    split_ifs with htag
    · rw [hc htag]
      exact .same _
    · exact (templated_rowTokens c.atoms).between _ _
  rw [Block.values, timestamps_append, timestamps_flatMap]
  exact hbody.append (.flatMap fun a _ => a.templated_tokens)

theorem Dialect.written_eq_empty (d d' : Dialect) (x : Value) (declared : Option ColumnType) :
    d.written x declared = "" ↔ d'.written x declared = "" := by
  cases hx : x.timestamp? with
  | none => rw [d.written_eq d' hx]
  | some t =>
    obtain rfl := Value.eq_dateTime hx
    exact iff_of_false (quoted_ne_empty _) (quoted_ne_empty _)

theorem Entry.written_eq_empty {e : Entry} (he : e.Settled) (d d' : Dialect) :
    e.written (v.inDialect d) = "" ↔ e.written (v.inDialect d') = "" := by
  cases e with
  | column => exact Iff.rfl
  | parameter key p =>
    obtain ⟨x, hx⟩ := he
    rw [written, written, Parameter.render_value hx, Parameter.render_value hx,
      String.append_eq_empty_iff, String.append_eq_empty_iff]
    exact and_congr_right fun _ => Dialect.written_eq_empty _ _ x p.declared

theorem Entry.timestamps_of_empty {e : Entry} (hempty : e.written v = "") :
    timestamps e.held?.toList = [] := by
  cases e with
  | column => rfl
  | parameter key p =>
    rw [held?]
    cases hx : p.held? with
    | none => rfl
    | some x =>
      rw [written, Parameter.render_value hx, String.append_eq_empty_iff] at hempty
      cases x with
      | dateTime => exact absurd hempty.2 (quoted_ne_empty _)
      | null | bool | int | float | decimal | string | date | uuid | raw => rfl

theorem Listing.templated_tokens {l : Listing} (hl : ∀ e ∈ l.entries, e.Settled) :
    Templated (fun d => l.tokens (v.inDialect d))
      (timestamps (l.entries.filterMap Entry.held?)) := by
  have hshown (d : Dialect) : l.shown (v.inDialect d) = l.shown (v.inDialect default) :=
    List.filter_congr fun e he =>
      decide_eq_decide.2 (not_congr (Entry.written_eq_empty (hl e he) d default))
  have hstamps : timestamps (l.entries.filterMap Entry.held?) =
      (l.shown (v.inDialect default)).flatMap fun e => timestamps e.held?.toList := by
    rw [timestamps_filterMap, shown]
    generalize l.entries = entries
    induction entries with
    | nil => rfl
    | cons e entries ih =>
      rw [List.flatMap_cons, List.filter_cons, ih]
      by_cases hempty : e.written (v.inDialect default) = ""
      · rw [Entry.timestamps_of_empty hempty, List.nil_append, if_neg (by simpa using hempty)]
      · rw [if_pos (by simpa using hempty), List.flatMap_cons]
  rw [hstamps]
  simp only [tokens, hshown]
  split_ifs with hempty
  · rw [hempty]
    exact .same _
  · have hentries := Templated.joinTokens (l := l.shown (v.inDialect default))
      (fun e _ => e.templated_tokens (v := v)) (words ", ")
    exact hentries.between _ _

theorem Block.templated_tokens {b : Block} (hb : b.Settled) :
    Templated (fun d => b.tokens (v.inDialect d)) (timestamps b.values) := by
  cases b with
  | text => exact .same _
  | listing l => exact Listing.templated_tokens hb
  | clause c => exact Clause.templated_tokens hb

theorem templated_fragments {bs : List Block} (hbs : ∀ b ∈ bs, b.Settled)
    {rows : Dialect → List Token} {stamps : List Timestamp} (h : Templated rows stamps) :
    Templated (fun d => (bs.map (Block.tokens (v.inDialect d))).foldl Text.appendTokens (rows d))
      (stamps ++ timestamps (bs.flatMap Block.values)) := by
  induction bs generalizing rows stamps with
  | nil => simpa [timestamps] using h
  | cons b bs ih =>
    rw [List.forall_mem_cons] at hbs
    rw [List.flatMap_cons, timestamps_append, ← List.append_assoc]
    exact ih hbs.2 (h.appendTokens (Block.templated_tokens hbs.1))

/-- One template spells the statement of an outline in every dialect. -/
theorem Outline.exists_template {s : Outline} (hs : s.Each Block.Settled) (qualify : Bool) :
    ∃ template : List Stretch, template.filterMap Stretch.stamp? = timestamps s.values ∧
      ∀ d, (s.sql ⟨d, qualify⟩).toList = template.flatMap (Stretch.spell d) := by
  obtain ⟨template, hstamps, hrows⟩ :=
    templated_fragments (v := s.view ⟨default, qualify⟩) hs (.same [])
  refine ⟨template, hstamps, fun d => ?_⟩
  have htokens : s.tokens (s.view ⟨d, qualify⟩) = template.map (Stretch.tokenIn d) := hrows d
  rw [toList_sql hs, htokens, List.flatMap_map]
  exact congrArg template.flatMap (funext fun x => x.spell_tokenIn d)

end SqlComposer
