import SqlComposer.Proofs.Outline.Query
import SqlComposer.Proofs.Outline.Strings

/-!
# Statements without apostrophes

Names and values without apostrophes make an outline that has none outside of its literals, and
every operation on the outline keeps it so.
-/
namespace SqlComposer

/-- No name has an apostrophe, and no value brings one of its own. -/
def Expr.Clean : Expr → Prop
  | .member entity tableAlias field =>
    (∀ s ∈ entity, Text.Clean s) ∧ (∀ s ∈ tableAlias, Text.Clean s) ∧ Text.Clean field
  | .constant v => v.Clean
  | .deferred d => d.result.Clean
  | .binary _ left right => left.Clean ∧ right.Clean
  | .convert inner => inner.Clean
  | .computed _ d => d.result.Clean

structure Scope.Clean (scope : Scope) : Prop where
  entity : ∀ s ∈ scope.entity, Text.Clean s
  tableAlias : ∀ s ∈ scope.tableAlias, Text.Clean s

variable {scope : Scope} {e : Expr}

theorem Scope.Clean.columnRef (hs : scope.Clean) {entity tableAlias : Option String}
    {field : String} (hentity : ∀ s ∈ entity, Text.Clean s)
    (halias : ∀ s ∈ tableAlias, Text.Clean s) (hfield : Text.Clean field) :
    (scope.columnRef entity tableAlias field).Clean := by
  cases tableAlias with
  | some a => exact ⟨hfield, nofun, nofun, halias⟩
  | none =>
    cases entity with
    | some entity => exact ⟨hfield, nofun, hentity, nofun⟩
    | none => exact ⟨hfield, nofun, hs.entity, hs.tableAlias⟩

theorem Scope.Clean.field? (hs : scope.Clean) (he : e.Clean) {r : ColumnRef}
    (hr : scope.field? e = some r) : r.Clean := by
  induction e with
  | member entity tableAlias field =>
    cases hr
    exact hs.columnRef he.1 he.2.1 he.2.2
  | convert inner ih => exact ih he hr
  | constant | deferred | binary | computed => cases hr

namespace Operand

theorem clean_value {v : Value} (hv : v.Clean) : (Operand.value v).Clean := by
  rintro x ⟨⟩
  exact hv

theorem clean_verbatim (hs : scope.Clean) (he : e.Clean) : (verbatim scope e).Clean := by
  induction e with
  | member => exact hs.columnRef he.1 he.2.1 he.2.2
  | constant | computed => exact clean_value he
  | deferred d =>
    rintro x ⟨⟩
    exact he
  | convert inner ih => exact ih he
  | binary op left right ihl ihr => exact ⟨ihl he.1, ihr he.2⟩

theorem clean_ofExpr (hs : scope.Clean) (he : e.Clean) : (ofExpr scope e).Clean := by
  induction e with
  | member => exact hs.columnRef he.1 he.2.1 he.2.2
  | constant | computed => exact clean_value he
  | deferred d =>
    rintro x ⟨⟩
    exact he
  | convert inner ih => exact ih he
  | binary op left right ihl ihr =>
    have hl := ihl he.1
    have hr := ihr he.2
    rw [ofExpr]
    split_ifs with hop
    · cases h : (Expr.binary op left right).evaluate.value with
      | some v =>
        obtain ⟨n, rfl⟩ | ⟨x, rfl⟩ := Expr.evaluate_arithmetic_eq_some hop h <;>
          exact clean_value trivial
      | none => exact ⟨clean_verbatim hs he.1, clean_verbatim hs he.2⟩
    · exact hl
    · exact hr
    · exact ⟨hl, hr⟩

end Operand

theorem Scope.Clean.row (hs : scope.Clean) (he : e.Clean) : CleanRow (scope.atoms e).value :=
  .inr ⟨_, Operand.clean_ofExpr hs he, scope.atoms_eq e⟩

namespace Block

theorem Clean.nest {b : Block} (hb : b.Clean) {a : Addition} (ha : CleanRow a.atoms) :
    (b.nest a).Clean := by
  cases b with
  | text | listing => exact hb
  | clause c =>
    obtain ⟨hentity, halias, hatoms, hfrom, hadditions⟩ := hb
    refine ⟨hentity, halias, hatoms, hfrom, fun a' ha' => ?_⟩
    obtain ha' | ha' := List.mem_append.1 ha'
    · exact hadditions a' ha'
    · rwa [List.mem_singleton.1 ha']

theorem Clean.enter {b : Block} (hb : b.Clean) {e : Entry} (he : e.Clean) :
    (b.enter e).Clean := by
  cases b with
  | text | clause => exact hb
  | listing l =>
    intro e' he'
    have hmem : e' ∈ l.entries ∨ e' = e := by
      simp only [Listing.enter] at he'
      split_ifs at he' with hclosed
      · exact .inl he'
      · simpa using he'
    obtain he' | rfl := hmem
    · exact hb e' he'
    · exact he

theorem clean_clause {atoms : List Atom} (hatoms : CleanRow atoms) (key : Key) (tag : Tag)
    (htag : tag.frame? = none) (hfrom : tag ≠ .fromClause) :
    (clause { key, tag, atoms, opensNoList := htag }).Clean :=
  ⟨nofun, nofun, hatoms, fun h => absurd h hfrom, nofun⟩

theorem clean_source (key : Key) {tag : Tag} (htag : tag.frame? = none) {entity : String}
    (hentity : Text.Clean entity) {tableAlias : Option String}
    (halias : ∀ s ∈ tableAlias, Text.Clean s) {atoms : List Atom} (hatoms : CleanRow atoms)
    (hfrom : tag = .fromClause → atoms = []) :
    (clause { key, tag, entity := some entity, tableAlias, atoms, opensNoList := htag }).Clean :=
  ⟨fun _ h => Option.some.inj h ▸ hentity, halias, hatoms, hfrom, nofun⟩

end Block

namespace Outline.Clean

variable {s : Outline} (hs : s.Clean) {atoms : List Atom}

include hs

theorem insert {b : Block} (hb : b.Clean) (before : Tag → Bool) (n : Nat) :
    (s.insert b before n).Clean :=
  ⟨Each.insert hs.blocks hb before n, hs.aliases⟩

theorem nest (hatoms : CleanRow atoms) (anchor : Block → Bool) (joint : Joint) :
    (s.nest anchor joint atoms).Clean := by
  have hclause (key : Key) := Block.clean_clause hatoms key joint.tag joint.frame?_tag
    (by cases joint <;> decide)
  refine ⟨Each.nest hs.blocks (fun _ hb => hb.nest hatoms) hclause anchor, ?_⟩
  rw [nest_aliases]
  exact hs.aliases

theorem enter {e : Key → Entry} (he : ∀ key, (e key).Clean) (tag : Tag) :
    (s.enter tag e).Clean :=
  ⟨Each.enter hs.blocks (fun key hb => hb.enter (he key)) tag, hs.aliases⟩

theorem setAlias (entity : String) {tableAlias : Option String}
    (halias : ∀ a ∈ tableAlias, Text.Clean a) : (s.setAlias entity tableAlias).Clean := by
  refine ⟨Each.setAlias hs.blocks entity tableAlias, ?_⟩
  cases tableAlias with
  | none => exact hs.aliases
  | some a =>
    intro entry hentry
    rw [Outline.setAlias, AliasTable.set] at hentry
    simp only at hentry
    split_ifs at hentry
    · exact hs.aliases entry hentry
    · obtain hentry | hentry := List.mem_append.1 hentry
      · exact hs.aliases entry hentry
      · rw [List.mem_singleton.1 hentry]
        exact halias a rfl

theorem restrict (hatoms : CleanRow atoms) (before : Tag → Bool) :
    (s.restrict before atoms).Clean := by
  refine ⟨Each.restrict hs.blocks (fun _ hb => hb.nest hatoms) (Block.clean_clause hatoms) before,
    ?_⟩
  rw [restrict_aliases]
  exact hs.aliases

theorem order (hatoms : CleanRow atoms) {first : Tag} (hfirst : first.frame? = none)
    (hfrom : first ≠ .fromClause) (next : Joint) : (s.order first hfirst next atoms).Clean := by
  refine ⟨Each.order hs.blocks hfirst hfrom (fun _ hb => hb.nest hatoms)
    (Block.clean_clause hatoms), ?_⟩
  rw [order_aliases]
  exact hs.aliases

theorem join (hatoms : CleanRow atoms) {kind : Tag} (hkind : kind.frame? = none)
    (hfrom : kind ≠ .fromClause) {entity : String} (hentity : Text.Clean entity)
    {tableAlias : Option String} (halias : ∀ a ∈ tableAlias, Text.Clean a) :
    (s.join kind hkind entity tableAlias atoms).Clean :=
  (hs.setAlias entity halias).insert
    (Block.clean_source _ hkind hentity halias hatoms fun h => absurd h hfrom) _ _

theorem openGrouping : s.openGrouping.Clean := by
  refine ⟨Each.openGrouping hs.blocks (fun _ e he => nomatch he), ?_⟩
  rw [openGrouping_aliases]
  exact hs.aliases

theorem supply {fields : List ColumnRef} (hfields : ∀ r ∈ fields, r.Clean) :
    (s.supply fields).Clean := by
  have hunmet (present fields : List ColumnRef) : Draft.unmet present fields ⊆ fields := by
    induction fields generalizing present with
    | nil => exact List.Subset.refl _
    | cons r fields ih =>
      rw [Draft.unmet]
      split_ifs
      · exact List.subset_cons_of_subset _ (ih present)
      · exact List.cons_subset_cons _ (ih _)
  constructor
  · refine Each.supply hs.blocks fun {l} key hl e he => ?_
    obtain he | he := List.mem_append.1 he
    · exact hl e (List.mem_filter.1 he).1
    · obtain ⟨_, r, hr, rfl⟩ := Entry.eq_column_of_mem he
      exact hfields r (hunmet _ _ hr)
  · rw [supply_aliases]
    exact hs.aliases

theorem closeSelect : s.closeSelect.Clean := by
  refine ⟨Each.closeSelect hs.blocks fun {b} hb _ => ?_, hs.aliases⟩
  cases b with
  | text | clause => exact hb
  | listing => exact hb

end Outline.Clean

end SqlComposer
