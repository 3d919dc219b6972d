import SqlComposer.Proofs.Tree.Place

/-!
# Into the last group

A part that is added to the last group that satisfies a predicate is looked for among all parts,
depth first, and put in by the key of what was found. Where keys differ it becomes the last child
of that very group, and no other group takes it when the group is closed.
-/
namespace SqlComposer

open SqlComposer.Part (sequenceAll)

theorem Part.push_of_closed {g : Part} (hclosed : g.isClosed = true) (p : Part) :
    Part.push p g = g := by
  cases g with
  | leaf => cases hclosed
  | group h shape cs isClosed =>
    obtain rfl : isClosed = true := hclosed
    rfl

theorem Part.eq_group_of_open {g : Part} (hgroup : g.isGroup = true) (hopen : g.isClosed = false) :
    ∃ head shape cs, g = .group head shape cs false := by
  cases g with
  | leaf => cases hgroup
  | group h shape cs isClosed =>
    obtain rfl : isClosed = false := hopen
    exact ⟨h, shape, cs, rfl⟩

namespace Tree

variable {t : Tree} {g : Part} {anchor : Part → Bool}

theorem lastGroup?_eq_some {l r : List Part} (hsplit : t.flatten = l ++ g :: r)
    (hgroup : g.isGroup = true) (hanchor : anchor g = true)
    (hlast : ∀ q ∈ r, q.isGroup = true → anchor q = false) : t.lastGroup? anchor = some g := by
  have hbehind : r.filter (fun q => q.isGroup && anchor q) = [] := by
    refine List.filter_eq_nil_iff.2 fun q hq => ?_
    rw [Bool.and_eq_true]
    exact fun h => Bool.false_ne_true ((hlast q hq h.1).symm.trans h.2)
  rw [lastGroup?, hsplit, List.filter_append, List.filter_cons_of_pos (by simp [hgroup, hanchor]),
    hbehind, List.getLast?_concat]

theorem lastGroup?_eq_none (hnone : ∀ q ∈ t.flatten, q.isGroup = true → anchor q = false) :
    t.lastGroup? anchor = none := by
  rw [lastGroup?, List.getLast?_eq_none_iff, List.filter_eq_nil_iff]
  intro q hq
  rw [Bool.and_eq_true]
  exact fun h => Bool.false_ne_true ((hnone q hq h.1).symm.trans h.2)

variable {place : Place}

theorem update_push_of_closed (hkeys : t.keys.Nodup) (hparts : t.parts = place.fill [g])
    (hclosed : g.isClosed = true) (p : Part) : t.update g.key (Part.push p) = t := by
  rw [update_of_place hkeys hparts, Part.push_of_closed hclosed, ← hparts]

theorem update_push_of_open {head : Head} {shape : Shape} {cs : List Part} (hkeys : t.keys.Nodup)
    (hparts : t.parts = place.fill [.group head shape cs false]) (p : Part) :
    t.update head.key (Part.push p) =
      { t with parts := place.fill [.group head shape (cs ++ [p]) false] } :=
  update_of_place hkeys hparts (Part.push p)

theorem addToLastWhere_of_some (hlast : t.lastGroup? anchor = some g) (p : Part) :
    t.addToLastWhere p anchor = t.update g.key (Part.push p) := by
  rw [addToLastWhere, hlast, update]

theorem sequence_group_concat (place : Place) (head : Head) (shape : Shape) (cs : List Part)
    (p : Part) :
    sequenceAll (place.fill [.group head shape (cs ++ [p]) false]) =
      place.ahead ++ Part.sequence (.group head shape cs false) ++ p.sequence ++ place.behind := by
  rw [Place.sequenceAll_fill, Part.sequenceAll_cons, Part.sequence_eq, Part.sequence_eq,
    Part.children, Part.children, Part.sequenceAll_append, Part.sequenceAll_cons,
    Part.sequenceAll_nil]
  simp [Part.bare]

/-- A part that is added to the last group that satisfies a predicate goes into the last such group
among all parts, depth first, whatever else satisfies the predicate: it becomes the last child of
that group, which in the sequence of the parts is behind everything below the group, and nothing
else changes. If that group is closed nothing changes, and without such a group the part goes to
the end of the tree. -/
theorem goes_into_last_group (hkeys : t.keys.Nodup) (p : Part) (anchor : Part → Bool) :
    (∀ l g r, t.flatten = l ++ g :: r → g.isGroup = true → anchor g = true →
      (∀ q ∈ r, q.isGroup = true → anchor q = false) →
      ∃ place : Place, t.parts = place.fill [g] ∧ t.reach? g.key = some (g, place) ∧
        (g.isClosed = true → t.addToLastWhere p anchor = t) ∧
        (g.isClosed = false → ∃ head shape cs, g = .group head shape cs false ∧
          t.addToLastWhere p anchor =
            { t with parts := place.fill [.group head shape (cs ++ [p]) false] } ∧
          t.sequence = place.ahead ++ g.sequence ++ place.behind ∧
          (t.addToLastWhere p anchor).sequence =
            place.ahead ++ g.sequence ++ p.sequence ++ place.behind)) ∧
    ((∀ q ∈ t.flatten, q.isGroup = true → anchor q = false) →
      t.addToLastWhere p anchor = { t with parts := t.parts ++ [p] }) := by
  constructor
  · intro l g r hsplit hgroup hanchor hbehind
    have hg : g ∈ t.flatten := hsplit ▸ List.mem_append_right l List.mem_cons_self
    have hadd := addToLastWhere_of_some (lastGroup?_eq_some hsplit hgroup hanchor hbehind) p
    obtain ⟨place, hparts, hreach⟩ := exists_reach? hkeys hg
    refine ⟨place, hparts, hreach, fun hclosed => ?_, fun hopen => ?_⟩
    · exact hadd.trans (update_push_of_closed hkeys hparts hclosed p)
    · obtain ⟨head, shape, cs, rfl⟩ := Part.eq_group_of_open hgroup hopen
      have hpush := hadd.trans (update_push_of_open hkeys hparts p)
      refine ⟨head, shape, cs, rfl, hpush, ?_, ?_⟩
      · rw [sequence, hparts, Place.sequenceAll_fill, Part.sequenceAll_cons, Part.sequenceAll_nil,
          List.append_nil]
      · rw [hpush, sequence, sequence_group_concat]
  · intro hnone
    rw [addToLastWhere, lastGroup?_eq_none hnone, add]

def restricted : Tree where
  parts :=
    [.list 1 .select [.text 2 .item "Id"],
      .clause 3 .whereClause none none
        [.text 4 .plain "Id = 1", .clause 5 .andClause none none [.text 6 .plain "Name = 2"]],
      .text 7 .whereClause ""]

def isCondition (p : Part) : Bool :=
  p.tag == .whereClause || p.tag == .andClause

theorem goes_into_last_group_nested :
    restricted.keys.Nodup ∧ ∃ place : Place,
      restricted.parts =
        place.fill [.clause 5 .andClause none none [.text 6 .plain "Name = 2"]] ∧
      restricted.addToLastWhere (.text 8 .plain "OR") isCondition =
        { restricted with
          parts := place.fill [
            .clause 5 .andClause none none [.text 6 .plain "Name = 2", .text 8 .plain "OR"]] } := by
  have hkeys : restricted.keys.Nodup := by decide
  have hbehind : ∀ q ∈ [Part.text 6 .plain "Name = 2", .text 7 .whereClause ""],
      q.isGroup = true → isCondition q = false := by
    rintro q (_ | ⟨_, _ | ⟨_, ⟨⟩⟩⟩) hgroup <;> cases hgroup
  obtain ⟨place, hparts, -, -, hopen⟩ :=
    (goes_into_last_group hkeys (.text 8 .plain "OR") isCondition).1
      [.list 1 .select [.text 2 .item "Id"], .text 2 .item "Id",
        .clause 3 .whereClause none none
          [.text 4 .plain "Id = 1", .clause 5 .andClause none none [.text 6 .plain "Name = 2"]],
        .text 4 .plain "Id = 1"]
      (.clause 5 .andClause none none [.text 6 .plain "Name = 2"]) _ rfl rfl rfl hbehind
  obtain ⟨head, shape, cs, hgroup, hpush, -⟩ := hopen rfl
  cases hgroup
  exact ⟨hkeys, place, hparts, hpush⟩

example : (restricted.addToLastWhere (.text 8 .plain "OR") isCondition).keys =
    [1, 2, 3, 4, 5, 6, 8, 7] := by decide

example : ((restricted.update 5 Part.close).addToLastWhere (.text 8 .plain "OR") isCondition).keys =
    [1, 2, 3, 4, 5, 6, 7] := by decide

end Tree

end SqlComposer
