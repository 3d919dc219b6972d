import Mathlib.Data.List.Pairwise
import SqlComposer.Part.Render
import SqlComposer.Proofs.Tree
import SqlComposer.Proofs.Supply

/-!
# Outlines of drafts

The statement builders make drafts of two levels: texts, lists of columns and parameters, and
clauses whose atoms are followed by further clauses. An outline is such a draft, block by block,
and the insertions of a draft are insertions into its outline.
-/
namespace SqlComposer

/-- What goes on with a clause inside it. -/
inductive Joint where
  | and
  | or
  | thenBy
  | thenByDesc
  deriving DecidableEq

def Joint.tag : Joint → Tag
  | .and => .andClause
  | .or => .orClause
  | .thenBy => .thenBy
  | .thenByDesc => .thenByDesc

structure Addition where
  key : Key
  joint : Joint
  atoms : List Atom

inductive Entry where
  | column (key : Key) (f : ColumnRef)
  | parameter (key : Key) (p : Parameter)

structure Listing where
  key : Key
  tag : Tag
  entries : List Entry := []
  isClosed : Bool := false
  opensList : tag.frame?.isSome := by rfl

theorem Tag.frame?_fromClause : Tag.fromClause.frame? = none := rfl

/-- A clause with the atoms of its body and with what goes on with it. -/
structure Clause where
  key : Key
  tag : Tag
  entity : Option String := none
  tableAlias : Option String := none
  atoms : List Atom := []
  additions : List Addition := []
  opensNoList : tag.frame? = none := by rfl

/-- The words that name a statement and its table. -/
inductive Verb where
  | insert
  | update
  deriving DecidableEq

def Verb.tag : Verb → Tag
  | .insert => .insert
  | .update => .update

inductive Block where
  | text (key : Key) (verb : Verb) (s : String)
  | listing (l : Listing)
  | clause (c : Clause)

structure Outline where
  blocks : List Block := []
  aliases : AliasTable := []
  nextKey : Key := 1

theorem Joint.frame?_tag (j : Joint) : j.tag.frame? = none := by
  cases j <;> rfl

namespace Addition

def part (a : Addition) : Part :=
  .clause a.key a.joint.tag none none (Part.ofAtoms (a.key + 1) a.atoms)

theorem part_tag (a : Addition) : a.part.tag = a.joint.tag := rfl

def clause (a : Addition) : Clause where
  key := a.key
  tag := a.joint.tag
  atoms := a.atoms
  opensNoList := a.joint.frame?_tag

def keys (a : Addition) : List Key :=
  List.range' a.key (a.atoms.length + 1)

theorem part_flatten_keys (a : Addition) : a.part.flatten.map Part.key = a.keys := by
  simp only [part, Part.clause, Part.flatten, Part.flattenAll_ofAtoms, List.map_cons,
    Part.ofAtoms_keys, keys, List.range'_succ]
  rfl

end Addition

namespace Entry

def part : Entry → Part
  | .column key f => .field key f
  | .parameter key p => .parameter key .plain p

def key : Entry → Key
  | .column key _ => key
  | .parameter key _ => key

@[simp] theorem part_key (e : Entry) : e.part.key = e.key := by
  cases e <;> rfl

@[simp] theorem part_flatten (e : Entry) : e.part.flatten = [e.part] := by
  cases e <;> rfl

@[simp] theorem part_isGroup (e : Entry) : e.part.isGroup = false := by
  cases e <;> rfl

theorem flattenAll_part (l : List Entry) :
    Part.flattenAll (l.map part) = l.map part := by
  induction l with
  | nil => rfl
  | cons e l ih => simp [Part.flattenAll, ih]

end Entry

def Clause.nest (c : Clause) (a : Addition) : Clause :=
  { c with additions := c.additions ++ [a] }

def Listing.enter (l : Listing) (e : Entry) : Listing :=
  { l with entries := if l.isClosed then l.entries else l.entries ++ [e] }

theorem Listing.entries_enter {l : Listing} (h : l.isClosed = false) (e : Entry) :
    (l.enter e).entries = l.entries ++ [e] :=
  if_neg (ne_true_of_eq_false h)

namespace Block

def tag : Block → Tag
  | .text _ v _ => v.tag
  | .listing l => l.tag
  | .clause c => c.tag

def key : Block → Key
  | .text key _ _ => key
  | .listing l => l.key
  | .clause c => c.key

def isClause : Block → Bool
  | .clause _ => true
  | _ => false

def additions : Block → List Addition
  | .clause c => c.additions
  | _ => []

def isListing : Block → Bool
  | .listing _ => true
  | _ => false

def isClosed : Block → Bool
  | .listing l => l.isClosed
  | _ => false

def part : Block → Part
  | .text key verb s => .text key verb.tag s
  | .listing l => .group { key := l.key, tag := l.tag } .list (l.entries.map Entry.part) l.isClosed
  | .clause c => .clause c.key c.tag c.entity c.tableAlias
      (Part.ofAtoms (c.key + 1) c.atoms ++ c.additions.map Addition.part)

def keys (b : Block) : List Key :=
  b.part.flatten.map Part.key

def nest (a : Addition) : Block → Block
  | .clause c => .clause (c.nest a)
  | b => b

def enter (e : Entry) : Block → Block
  | .listing l => .listing (l.enter e)
  | b => b

/-- A property that a block keeps while it grows, and that no select list has. -/
structure Lasting (P : Block → Prop) : Prop where
  nest : ∀ {b} a, P b → P (b.nest a)
  enter : ∀ {b} e, P b → P (b.enter e)
  apart : ∀ {b}, P b → b.tag ≠ .select

def ClauseAt (k : Key) (b : Block) : Prop :=
  b.isClause = true ∧ b.key = k

variable {b : Block} {a : Addition} {e : Entry}

@[simp] theorem part_key (b : Block) : b.part.key = b.key := by
  cases b <;> rfl

@[simp] theorem part_tag (b : Block) : b.part.tag = b.tag := by
  cases b <;> rfl

@[simp] theorem part_isGroup (b : Block) : b.part.isGroup = (b.isClause || b.isListing) := by
  cases b <;> rfl

@[simp] theorem nest_tag : (b.nest a).tag = b.tag := by
  cases b <;> rfl

@[simp] theorem nest_key : (b.nest a).key = b.key := by
  cases b <;> rfl

@[simp] theorem nest_isClause : (b.nest a).isClause = b.isClause := by
  cases b <;> rfl

@[simp] theorem nest_isClosed : (b.nest a).isClosed = b.isClosed := by
  cases b <;> rfl

@[simp] theorem enter_isClosed : (b.enter e).isClosed = b.isClosed := by
  cases b <;> rfl

@[simp] theorem enter_isClause : (b.enter e).isClause = b.isClause := by
  cases b <;> rfl

@[simp] theorem enter_tag : (b.enter e).tag = b.tag := by
  cases b <;> rfl

@[simp] theorem enter_key : (b.enter e).key = b.key := by
  cases b <;> rfl

theorem isClause_of_frame? (hb : b.tag.frame? = none) (hverb : ∀ v : Verb, b.tag ≠ v.tag) :
    b.isClause = true := by
  cases b with
  | text _ verb => exact absurd rfl (hverb verb)
  | listing l =>
    have hl := l.opensList
    rw [show l.tag.frame? = none from hb] at hl
    cases hl
  | clause => rfl

theorem isListing_of_frame? (hb : b.tag.frame?.isSome) : b.isListing = true := by
  cases b with
  | text _ verb => cases verb <;> cases hb
  | listing => rfl
  | clause c =>
    have hnone : (Block.clause c).tag.frame? = none := c.opensNoList
    rw [hnone] at hb
    cases hb

theorem lasting_clauseAt (k : Key) : Lasting (ClauseAt k) where
  nest a h := ⟨nest_isClause.trans h.1, nest_key.trans h.2⟩
  enter e h := ⟨enter_isClause.trans h.1, enter_key.trans h.2⟩
  apart := by
    rintro (_ | _ | c) ⟨hclause, -⟩ htag
    · cases hclause
    · cases hclause
    · have hframe := c.opensNoList
      rw [show c.tag = .select from htag] at hframe
      cases hframe

theorem part_nest (hb : b.isClause) : (b.nest a).part = Part.push a.part b.part := by
  cases b with
  | clause c => simp [nest, Clause.nest, part, Part.clause, Part.push]
  | text | listing => cases hb

theorem part_enter (hb : b.isListing) : (b.enter e).part = Part.push e.part b.part := by
  cases b with
  | listing l => cases h : l.isClosed <;> simp [enter, Listing.enter, part, Part.push, h]
  | text | clause => cases hb

theorem keys_text (key : Key) (verb : Verb) (s : String) : (text key verb s).keys = [key] := rfl

theorem keys_listing (l : Listing) :
    (listing l).keys = l.key :: l.entries.map Entry.key := by
  simp only [keys, part, Part.flatten, Entry.flattenAll_part, List.map_cons, List.map_map]
  congr 1
  exact List.map_congr_left fun e _ => e.part_key

theorem keys_clause (c : Clause) :
    (clause c).keys =
      List.range' c.key (c.atoms.length + 1) ++ c.additions.flatMap Addition.keys := by
  have hadditions : (Part.flattenAll (c.additions.map Addition.part)).map Part.key =
      c.additions.flatMap Addition.keys := by
    simp only [Part.flattenAll_eq, List.flatMap_map, List.map_flatMap, Addition.part_flatten_keys]
  simp only [keys, part, Part.clause, Part.flatten, Part.flattenAll_append,
    Part.flattenAll_ofAtoms, List.map_cons, List.map_append, Part.ofAtoms_keys, hadditions,
    List.range'_succ, List.cons_append]
  rfl

theorem key_mem_keys (b : Block) : b.key ∈ b.keys := by
  rw [← part_key, keys]
  exact b.part.key_mem_flatten

theorem keys_of_addition (ha : a ∈ b.additions) : a.key ∈ b.keys := by
  cases b with
  | clause c =>
    rw [keys_clause]
    refine List.mem_append_right _ (List.mem_flatMap.2 ⟨a, ha, ?_⟩)
    simp [Addition.keys]
  | text | listing => cases ha

theorem eq_addition_of_isGroup {p : Part} (hp : p ∈ Part.flattenAll b.part.children)
    (hgroup : p.isGroup = true) : ∃ a ∈ b.additions, p = a.part := by
  cases b with
  | text => cases hp
  | listing l =>
    simp only [part, Part.children, Entry.flattenAll_part, List.mem_map] at hp
    obtain ⟨e, -, rfl⟩ := hp
    rw [Entry.part_isGroup] at hgroup
    cases hgroup
  | clause c =>
    simp only [part, Part.clause, Part.children, Part.flattenAll_append, Part.flattenAll_ofAtoms,
      List.mem_append] at hp
    obtain hp | hp := hp
    · rw [Part.isGroup_of_mem_ofAtoms hp] at hgroup
      cases hgroup
    · rw [Part.flattenAll_eq] at hp
      obtain ⟨q, hq, hpq⟩ := List.mem_flatMap.1 hp
      obtain ⟨a, ha, rfl⟩ := List.mem_map.1 hq
      simp only [Addition.part, Part.clause, Part.flatten, Part.flattenAll_ofAtoms,
        List.mem_cons] at hpq
      obtain rfl | hpq := hpq
      · exact ⟨a, ha, rfl⟩
      · rw [Part.isGroup_of_mem_ofAtoms hpq] at hgroup
        cases hgroup

theorem nest_keys : (b.nest a).keys.Subperm (b.keys ++ a.keys) := by
  cases b with
  | clause c =>
    simp only [nest, Clause.nest, keys_clause, List.flatMap_append, List.flatMap_singleton,
      List.append_assoc]
    exact .refl _
  | text | listing => exact (List.sublist_append_left _ _).subperm

theorem enter_keys : (b.enter e).keys.Subperm (b.keys ++ [e.key]) := by
  cases b with
  | listing l =>
    cases hclosed : l.isClosed with
    | true =>
      simp only [enter, Listing.enter, keys_listing, hclosed, if_true]
      exact (List.sublist_append_left _ _).subperm
    | false =>
      simp only [enter, Listing.enter, hclosed, Bool.false_eq_true, if_false, keys_listing, List.map_append,
        List.cons_append]
      exact .refl _
  | text | clause => exact (List.sublist_append_left _ _).subperm

end Block

namespace Outline

def draft (s : Outline) : Draft where
  parts := s.blocks.map Block.part
  aliases := s.aliases
  nextKey := s.nextKey

def keys (s : Outline) : List Key :=
  s.blocks.flatMap Block.keys

/-- Every part has a key of its own, below the next one. -/
structure Keyed (s : Outline) : Prop where
  nodup : s.keys.Nodup
  lt_next : ∀ k ∈ s.keys, k < s.nextKey

def add (s : Outline) (b : Block) (n : Nat) : Outline :=
  { s with blocks := s.blocks ++ [b], nextKey := s.nextKey + n }

/-- Add a block that takes `n` keys ahead of the first one with such a tag. -/
def insert (s : Outline) (b : Block) (before : Tag → Bool) (n : Nat) : Outline :=
  { s with
    blocks := insertAhead (fun b => before b.tag) b s.blocks
    nextKey := s.nextKey + n }

/-- Go on with the last block that satisfies `anchor`, or add a clause that stands by itself. -/
def nest (s : Outline) (anchor : Block → Bool) (joint : Joint) (atoms : List Atom) : Outline :=
  let a : Addition := ⟨s.nextKey, joint, atoms⟩
  if s.blocks.any anchor then
    { s with
      blocks := modifyLast anchor (Block.nest a) s.blocks
      nextKey := s.nextKey + (atoms.length + 1) }
  else s.add (.clause a.clause) (atoms.length + 1)

def enter (s : Outline) (tag : Tag) (e : Key → Entry) : Outline :=
  { s with
    blocks := modifyLast (fun b => b.tag == tag) (Block.enter (e s.nextKey)) s.blocks
    nextKey := s.nextKey + 1 }

def Has (s : Outline) (P : Block → Prop) : Prop :=
  ∃ b ∈ s.blocks, P b

def Each (s : Outline) (P : Block → Prop) : Prop :=
  ∀ b ∈ s.blocks, P b

def setAlias (s : Outline) (entity : String) (tableAlias : Option String) : Outline :=
  match tableAlias with
  | some a => { s with aliases := s.aliases.set entity a }
  | none => s

/-- Start a restriction ahead of the first block with such a tag, or go on with the last one. -/
def restrict (s : Outline) (before : Tag → Bool) (atoms : List Atom) : Outline :=
  if s.blocks.any fun b => b.tag == .whereClause then
    s.nest (fun b => b.tag == .whereClause) .and atoms
  else
    s.insert (.clause { key := s.nextKey, tag := .whereClause, atoms }) before (atoms.length + 1)

variable {s t : Outline} {n : Nat}

@[simp] theorem setAlias_nextKey (s : Outline) (entity : String) (tableAlias : Option String) :
    (s.setAlias entity tableAlias).nextKey = s.nextKey := by
  cases tableAlias <;> rfl

@[simp] theorem setAlias_blocks (s : Outline) (entity : String) (tableAlias : Option String) :
    (s.setAlias entity tableAlias).blocks = s.blocks := by
  cases tableAlias <;> rfl

theorem blocks_enter {s : Outline} (front : List Block) {back : List Block} {l : Listing}
    (hblocks : s.blocks = front ++ .listing l :: back) (hback : ∀ b ∈ back, b.tag ≠ l.tag)
    (e : Key → Entry) :
    (s.enter l.tag e).blocks = front ++ .listing (l.enter (e s.nextKey)) :: back := by
  rw [enter, hblocks]
  exact modifyLast_append_cons (beq_self_eq_true l.tag)
    fun b hb => beq_eq_false_iff_ne.2 (hback b hb)

theorem draft_flatten_keys (s : Outline) : s.draft.flatten.map Part.key = s.keys := by
  simp only [Tree.flatten, draft, Part.flattenAll_eq, List.flatMap_map, List.map_flatMap, keys]
  rfl

theorem Keyed.grow (hs : s.Keyed) (hkeys : t.keys.Subperm (s.keys ++ List.range' s.nextKey n))
    (hnext : t.nextKey = s.nextKey + n) : t.Keyed := by
  have hall : (s.keys ++ List.range' s.nextKey n).Nodup := by
    rw [List.nodup_append]
    refine ⟨hs.nodup, List.nodup_range', ?_⟩
    rintro k hold _ hnew rfl
    exact Nat.not_lt.2 (List.mem_range'_1.1 hnew).1 (hs.lt_next k hold)
  constructor
  · obtain ⟨l, hperm, hsub⟩ := hkeys
    exact hperm.nodup_iff.1 (hall.sublist hsub)
  · intro k hk
    rw [hnext]
    obtain hold | hnew := List.mem_append.1 (hkeys.subset hk)
    · exact Nat.lt_add_right n (hs.lt_next k hold)
    · exact (List.mem_range'_1.1 hnew).2

theorem Keyed.insert (hs : s.Keyed) {b : Block} (before : Tag → Bool)
    (hb : b.keys = List.range' s.nextKey n) : (s.insert b before n).Keyed := by
  have hperm : (s.insert b before n).keys.Perm (s.keys ++ List.range' s.nextKey n) := by
    have hblocks := (insertAhead_perm (fun b => before b.tag) b s.blocks).flatMap_right Block.keys
    rwa [List.flatMap_append, List.flatMap_singleton, hb] at hblocks
  exact hs.grow hperm.subperm rfl

theorem Keyed.nest (hs : s.Keyed) (anchor : Block → Bool) (joint : Joint) (atoms : List Atom) :
    (s.nest anchor joint atoms).Keyed := by
  rw [Outline.nest]
  by_cases hany : s.blocks.any anchor = true
  · rw [if_pos hany]
    exact hs.grow (flatMap_modifyLast_subperm fun b _ _ => Block.nest_keys) rfl
  · rw [if_neg hany]
    refine hs.grow (n := atoms.length + 1) (List.Perm.subperm ?_) rfl
    rw [keys, add, List.flatMap_append, List.flatMap_singleton, Block.keys_clause]
    simp [keys, Addition.clause]

theorem Keyed.enter (hs : s.Keyed) (tag : Tag) {e : Key → Entry} (he : ∀ k, (e k).key = k) :
    (s.enter tag e).Keyed := by
  refine hs.grow (n := 1) (flatMap_modifyLast_subperm fun b _ _ => ?_) rfl
  have h := Block.enter_keys (b := b) (e := e s.nextKey)
  rwa [he] at h

theorem Keyed.restrict (hs : s.Keyed) (before : Tag → Bool) (atoms : List Atom) :
    (s.restrict before atoms).Keyed := by
  rw [Outline.restrict]
  by_cases hany : (s.blocks.any fun b => b.tag == .whereClause) = true
  · rw [if_pos hany]
    exact hs.nest _ _ _
  · rw [if_neg hany]
    exact hs.insert _ (by simp [Block.keys_clause])

theorem Keyed.setAlias (hs : s.Keyed) (entity : String) (tableAlias : Option String) :
    (s.setAlias entity tableAlias).Keyed := by
  cases tableAlias <;> exact ⟨hs.nodup, hs.lt_next⟩

theorem Keyed.block_eq (hs : s.Keyed) {b b' : Block} (hb : b ∈ s.blocks) (hb' : b' ∈ s.blocks)
    {k : Key} (hk : k ∈ b.keys) (hk' : k ∈ b'.keys) : b = b' := by
  by_contra hne
  have hsymm : Std.Symm (Function.onFun List.Disjoint Block.keys) := 
    ⟨fun _ _ h _ hk hk' => h hk' hk⟩
  exact (List.nodup_flatMap.1 hs.nodup).2.forall hb hb' hne hk hk'

theorem key_sublist_keys (bs : List Block) :
    (bs.map Block.key).Sublist (bs.flatMap Block.keys) := by
  induction bs with
  | nil => exact .slnil
  | cons b bs ih =>
    rw [List.map_cons, List.flatMap_cons, ← List.singleton_append]
    exact (List.singleton_sublist.2 b.key_mem_keys).append ih

theorem Keyed.key_ne_of_append (hs : s.Keyed) {l r : List Block} {b : Block}
    (hblocks : s.blocks = l ++ b :: r) : ∀ c ∈ r, (some c.key == some b.key) = false := by
  intro c hc
  have hnodup := hs.nodup.sublist (key_sublist_keys s.blocks)
  rw [hblocks, List.map_append, List.map_cons, List.nodup_append, List.nodup_cons] at hnodup
  have hne : c.key ≠ b.key := fun h => hnodup.2.1.1 (h ▸ List.mem_map_of_mem hc)
  simpa using hne

theorem Keyed.addition_ne (hs : s.Keyed) {b b' : Block} (hb : b ∈ s.blocks) (hb' : b' ∈ s.blocks)
    {a : Addition} (ha : a ∈ b'.additions) : a.key ≠ b.key := by
  intro hkey
  obtain rfl := hs.block_eq hb hb' b.key_mem_keys (hkey ▸ Block.keys_of_addition ha)
  have hnodup := (List.nodup_flatMap.1 hs.nodup).1 b hb
  cases b with
  | clause c =>
    rw [Block.keys_clause, List.nodup_append] at hnodup
    refine hnodup.2.2 c.key (by simp) a.key (List.mem_flatMap.2 ⟨a, ha, ?_⟩) hkey.symm
    simp [Addition.keys]
  | text | listing => cases ha

variable {P : Block → Prop}

theorem Has.insert (h : s.Has P) (b : Block) (before : Tag → Bool) (n : Nat) :
    (s.insert b before n).Has P := by
  obtain ⟨b', hb', hP⟩ := h
  have hperm := insertAhead_perm (fun b => before b.tag) b s.blocks
  exact ⟨b', hperm.mem_iff.2 (List.mem_append_left _ hb'), hP⟩

theorem has_insert {b : Block} (hb : P b) (before : Tag → Bool) (n : Nat) :
    (s.insert b before n).Has P :=
  ⟨b, (insertAhead_perm _ _ _).mem_iff.2 (List.mem_append_right _ List.mem_cons_self), hb⟩

theorem Has.add (h : s.Has P) (b : Block) (n : Nat) : (s.add b n).Has P := by
  obtain ⟨b', hb', hP⟩ := h
  exact ⟨b', List.mem_append_left _ hb', hP⟩

theorem has_add {b : Block} (hb : P b) (n : Nat) : (s.add b n).Has P :=
  ⟨b, List.mem_append_right _ List.mem_cons_self, hb⟩

theorem Has.modifyLast {f : Block → Block} {p : Block → Bool} (h : s.Has P)
    (hf : ∀ b, P b → P (f b)) (n : Nat) :
    Has { s with blocks := modifyLast p f s.blocks, nextKey := n } P := by
  obtain ⟨b, hb, hP⟩ := h
  obtain hmem | hmem := mem_modifyLast_or (p := p) (f := f) hb
  · exact ⟨b, hmem, hP⟩
  · exact ⟨f b, hmem, hf b hP⟩

theorem Has.nest (h : s.Has P) (hP : ∀ {b} a, P b → P (b.nest a)) (anchor : Block → Bool)
    (joint : Joint) (atoms : List Atom) : (s.nest anchor joint atoms).Has P := by
  rw [Outline.nest]
  by_cases hany : s.blocks.any anchor = true
  · rw [if_pos hany]
    exact h.modifyLast (fun _ => hP _) _
  · rw [if_neg hany]
    exact h.add _ _

theorem Has.enter (h : s.Has P) (hP : ∀ {b} e, P b → P (b.enter e)) (tag : Tag)
    (e : Key → Entry) : (s.enter tag e).Has P :=
  h.modifyLast (fun _ => hP _) _

theorem Has.setAlias (h : s.Has P) (entity : String) (tableAlias : Option String) :
    (s.setAlias entity tableAlias).Has P := by
  rwa [Has, setAlias_blocks]

theorem Has.restrict (h : s.Has P) (hP : ∀ {b} a, P b → P (b.nest a)) (before : Tag → Bool)
    (atoms : List Atom) : (s.restrict before atoms).Has P := by
  rw [Outline.restrict]
  by_cases hany : (s.blocks.any fun b => b.tag == .whereClause) = true
  · rw [if_pos hany]
    exact h.nest hP _ _ _
  · rw [if_neg hany]
    exact h.insert _ _ _

theorem Each.insert (h : s.Each P) {b : Block} (hb : P b) (before : Tag → Bool) (n : Nat) :
    (s.insert b before n).Each P := by
  intro b' hb'
  obtain hb' | hb' := List.mem_append.1 ((insertAhead_perm _ _ _).mem_iff.1 hb')
  · exact h b' hb'
  · rwa [List.mem_singleton.1 hb']

theorem Each.add (h : s.Each P) {b : Block} (hb : P b) (n : Nat) : (s.add b n).Each P := by
  intro b' hb'
  obtain hb' | hb' := List.mem_append.1 hb'
  · exact h b' hb'
  · rwa [List.mem_singleton.1 hb']

theorem Each.nest (h : s.Each P) {joint : Joint} {atoms : List Atom}
    (hnest : ∀ {b} key, P b → P (b.nest ⟨key, joint, atoms⟩))
    (hclause : ∀ key, P (.clause (Addition.clause ⟨key, joint, atoms⟩))) (anchor : Block → Bool) :
    (s.nest anchor joint atoms).Each P := by
  rw [Outline.nest]
  split_ifs
  · intro b hb
    obtain hb | ⟨b', hb', rfl⟩ := eq_or_of_mem_modifyLast hb
    · exact h b hb
    · exact hnest _ (h b' hb')
  · exact h.add (hclause _) _

theorem Each.enter (h : s.Each P) {e : Key → Entry} (henter : ∀ {b} key, P b → P (b.enter (e key)))
    (tag : Tag) : (s.enter tag e).Each P := by
  intro b hb
  obtain hb | ⟨b', hb', rfl⟩ := eq_or_of_mem_modifyLast hb
  · exact h b hb
  · exact henter _ (h b' hb')

theorem Each.setAlias (h : s.Each P) (entity : String) (tableAlias : Option String) :
    (s.setAlias entity tableAlias).Each P := by
  rwa [Each, setAlias_blocks]

theorem Each.restrict (h : s.Each P) {atoms : List Atom}
    (hnest : ∀ {b} key, P b → P (b.nest ⟨key, .and, atoms⟩))
    (hclause : ∀ key tag (htag : tag.frame? = none), tag ≠ .fromClause →
      P (.clause { key, tag, atoms, opensNoList := htag })) (before : Tag → Bool) :
    (s.restrict before atoms).Each P := by
  rw [Outline.restrict]
  split_ifs
  · exact h.nest hnest (fun key => hclause key .andClause rfl nofun) _
  · exact h.insert (hclause _ .whereClause rfl nofun) _ _

end Outline

end SqlComposer
