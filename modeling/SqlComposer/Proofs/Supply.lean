import SqlComposer.Proofs.Tree

/-!
# What a supplied select list holds

A select list that has to hold requested columns keeps its children in order, without the columns
that nobody asked for. New columns come behind them for what no child stands for.
-/
namespace SqlComposer.Draft

variable {children : List Part} {key : Key} {fields : List ColumnRef}

def stays (fields : List ColumnRef) (child : Part) : Bool :=
  child.field?.isNone || fields.any fun f => covers f child

/-- Whether a column stands for a requested one, by name or result alias. -/
def answers (requested present : ColumnRef) : Bool :=
  present.field == requested.field || present.resultAlias == some requested.field

/-- The requested columns that no column stands for, each once. -/
def unmet : List ColumnRef → List ColumnRef → List ColumnRef
  | _, [] => []
  | present, f :: fs =>
    if present.any (answers f) then unmet present fs else f :: unmet (present ++ [f]) fs

def columns (key : Key) (fields : List ColumnRef) : List Part :=
  Part.ofAtoms key (fields.map Atom.field)

/-- Whether one of the columns is asked from the child with the key. -/
def asked (children : List Part) (fields : List ColumnRef) (k : Key) : Bool :=
  fields.any fun f => children.any fun p => p.key == k && covers f p

theorem any_covers (f : ColumnRef) :
    children.any (covers f) = (children.filterMap Part.field?).any (answers f) := by
  induction children with
  | nil => rfl
  | cons p ps ih =>
    rw [List.any_cons, ih, covers]
    cases hp : p.field? with
    | none => simp [hp]
    | some g => simp [hp, answers]

theorem columns_keys (key : Key) (fields : List ColumnRef) :
    (columns key fields).map Part.key = List.range' key fields.length := by
  rw [columns, Part.ofAtoms_keys, List.length_map]

theorem columns_key_ge {p : Part} (hp : p ∈ columns key fields) : key ≤ p.key := by
  have hmem := List.mem_map_of_mem (f := Part.key) hp
  rw [columns_keys] at hmem
  exact (List.mem_range'_1.1 hmem).1

theorem mem_of_mem_unmet {fields present : List ColumnRef} {f : ColumnRef}
    (hf : f ∈ unmet present fields) : f ∈ fields := by
  induction fields generalizing present with
  | nil => cases hf
  | cons g fields ih =>
    rw [unmet] at hf
    split_ifs at hf
    · exact List.mem_cons_of_mem _ (ih hf)
    · obtain rfl | hf := List.mem_cons.1 hf
      · exact List.mem_cons_self
      · exact List.mem_cons_of_mem _ (ih hf)

theorem not_any_answers_of_mem_unmet {fields present : List ColumnRef} {f : ColumnRef}
    (hf : f ∈ unmet present fields) : present.any (answers f) = false := by
  induction fields generalizing present with
  | nil => cases hf
  | cons g fields ih =>
    rw [unmet] at hf
    split_ifs at hf with hg
    · exact ih hf
    · obtain rfl | hf := List.mem_cons.1 hf
      · exact Bool.eq_false_iff.2 hg
      · have hlonger := ih hf
        rw [List.any_append, Bool.or_eq_false_iff] at hlonger
        exact hlonger.1

theorem pairwise_unmet (present fields : List ColumnRef) :
    (unmet present fields).Pairwise fun f g => answers g f = false := by
  induction fields generalizing present with
  | nil => exact .nil
  | cons f fields ih =>
    rw [unmet]
    split_ifs
    · exact ih present
    · refine .cons (fun g hg => ?_) (ih _)
      have hlonger := not_any_answers_of_mem_unmet hg
      rw [List.any_append, Bool.or_eq_false_iff] at hlonger
      simpa using hlonger.2

theorem field_ne_of_mem_unmet {fields present : List ColumnRef} {f g : ColumnRef}
    (hf : f ∈ present) (hg : g ∈ unmet present fields) : f.field ≠ g.field := by
  intro hfield
  exact List.any_eq_false.1 (not_any_answers_of_mem_unmet hg) f hf (by simp [answers, hfield])

theorem nodup_field_unmet (present fields : List ColumnRef) :
    ((unmet present fields).map ColumnRef.field).Nodup := by
  refine List.pairwise_map.2 ((pairwise_unmet present fields).imp fun {f g} hnot hfield => ?_)
  simp [answers, hfield] at hnot

theorem exists_mem_unmet {fields present : List ColumnRef}
    (hplain : ∀ g ∈ fields, g.resultAlias = none) {f : ColumnRef} (hf : f ∈ fields)
    (hpresent : present.any (answers f) = false) : ∃ g ∈ unmet present fields, g.field = f.field := by
  induction fields generalizing present with
  | nil => cases hf
  | cons g fields ih =>
    obtain ⟨hg, hplain⟩ := List.forall_mem_cons.1 hplain
    rw [unmet]
    obtain rfl | hf := List.mem_cons.1 hf
    · rw [if_neg (Bool.eq_false_iff.1 hpresent)]
      exact ⟨_, List.mem_cons_self, rfl⟩
    · split_ifs
      · exact ih hplain hf hpresent
      · by_cases hfield : g.field = f.field
        · exact ⟨g, List.mem_cons_self, hfield⟩
        · have hlonger : (present ++ [g]).any (answers f) = false := by
            rw [List.any_append, hpresent]
            simp [answers, hfield, hg]
          obtain ⟨g', hg', hsame⟩ := ih hplain hf hlonger
          exact ⟨g', List.mem_cons_of_mem _ hg', hsame⟩

theorem exists_field_of_mem_columns {fields : List ColumnRef} {key : Key} {p : Part}
    (hp : p ∈ columns key fields) : ∃ k, ∃ f ∈ fields, p = .field k f := by
  induction fields generalizing key with
  | nil => cases hp
  | cons f fields ih =>
    obtain rfl | hp := List.mem_cons.1 hp
    · exact ⟨key, f, List.mem_cons_self, rfl⟩
    · obtain ⟨k, g, hg, rfl⟩ := ih hp
      exact ⟨k, g, List.mem_cons_of_mem _ hg, rfl⟩

theorem request_of_covered {s : Supply} {f : ColumnRef} (hf : s.children.any (covers f) = true) :
    s.request f =
      { s with unused := s.unused.filter fun k => !asked s.children [f] k } := by
  have hmapped : (s.children.filter (covers f)).map Part.key ≠ [] := by
    simpa using hf
  simp only [Supply.request, if_neg hmapped, asked, List.any_cons, List.any_nil, Bool.or_false]
  congr 1
  refine List.filter_congr fun k _ => ?_
  rw [Bool.eq_iff_iff]
  simp only [Bool.not_eq_true', List.contains_eq_mem, List.mem_map, List.mem_filter,
    decide_eq_false_iff_not, List.any_eq_false, Bool.and_eq_true, beq_iff_eq, not_exists, not_and]
  exact ⟨fun h p hp hk hc => h p ⟨hp, hc⟩ hk, fun h p hp hk => h p hp.1 hk hp.2⟩

theorem request_of_uncovered {s : Supply} {f : ColumnRef}
    (hf : ¬s.children.any (covers f) = true) :
    s.request f = ⟨s.children ++ [Part.field s.nextKey f], s.unused, s.nextKey + 1⟩ := by
  have hmapped : (s.children.filter (covers f)).map Part.key = [] := by
    simpa using hf
  simp [Supply.request, hmapped]

theorem asked_cons (f : ColumnRef) (fields : List ColumnRef) (k : Key) :
    asked children (f :: fields) k = (asked children [f] k || asked children fields k) := by
  simp [asked]

theorem asked_append_field {f : ColumnRef} {k : Key} (hk : k < key) :
    asked (children ++ [Part.field key f]) fields k = asked children fields k := by
  have hne : ((Part.field key f).key == k) = false := by
    simpa [Part.key, Part.head, Part.field] using Nat.ne_of_gt hk
  simp [asked, hne]

theorem asked_singleton_of_uncovered {f : ColumnRef} (hf : ¬children.any (covers f) = true)
    (k : Key) : asked children [f] k = false := by
  simp only [List.any_eq_true, not_exists, not_and] at hf
  simp only [asked, List.any_cons, List.any_nil, Bool.or_false, List.any_eq_false,
    Bool.and_eq_true, not_and]
  exact fun p hp _ => hf p hp

theorem foldl_request (fields : List ColumnRef) (s : Supply) (hs : ∀ k ∈ s.unused, k < s.nextKey) :
    fields.foldl Supply.request s =
      ⟨s.children ++ columns s.nextKey (unmet (s.children.filterMap Part.field?) fields),
        s.unused.filter fun k => !asked s.children fields k,
        s.nextKey + (unmet (s.children.filterMap Part.field?) fields).length⟩ := by
  induction fields generalizing s with
  | nil => simp [unmet, columns, Part.ofAtoms, asked]
  | cons f fs ih =>
    rw [List.foldl_cons]
    by_cases hf : s.children.any (covers f) = true
    · have hstep : ∀ k ∈ (s.request f).unused, k < (s.request f).nextKey := by
        rw [request_of_covered hf]
        exact fun k hk => hs k (List.mem_filter.1 hk).1
      rw [ih _ hstep, request_of_covered hf]
      simp only [unmet, ← any_covers, if_pos hf, List.filter_filter]
      congr 1
      refine List.filter_congr fun k _ => ?_
      rw [asked_cons f fs, Bool.not_or, Bool.and_comm]
    · have hstep : ∀ k ∈ (s.request f).unused, k < (s.request f).nextKey := by
        rw [request_of_uncovered hf]
        exact fun k hk => Nat.lt_succ_of_lt (hs k hk)
      rw [ih _ hstep, request_of_uncovered hf]
      simp only [unmet, ← any_covers, if_neg hf, List.filterMap_append, List.append_assoc,
        List.length_cons]
      congr 1
      · refine List.filter_congr fun k hk => ?_
        rw [asked_append_field (hs k hk), asked_cons f fs, asked_singleton_of_uncovered hf,
          Bool.false_or]
      · exact Nat.add_right_comm ..

theorem takeDirect?_eq {l r : List Part} {p : Part} (hl : p.key ∉ l.map Part.key) :
    Part.takeDirect? p.key (l ++ p :: r) = some (p, l ++ r) := by
  induction l with
  | nil => simp [Part.takeDirect?]
  | cons q l ih =>
    simp only [List.map_cons, List.mem_cons, not_or] at hl
    simp [Part.takeDirect?, Ne.symm hl.1, ih hl.2]

theorem take?_eq {p : Part} (hkeys : (children.map Part.key).Nodup) (hp : p ∈ children) :
    Part.take? p.key children = some (p, children.filter fun q => q.key ≠ p.key) := by
  obtain ⟨l, r, rfl⟩ := List.append_of_mem hp
  rw [List.map_append, List.map_cons, List.nodup_append, List.nodup_cons] at hkeys
  obtain ⟨-, ⟨hr, -⟩, hdisjoint⟩ := hkeys
  have hl : p.key ∉ l.map Part.key := fun hmem => hdisjoint _ hmem _ List.mem_cons_self rfl
  have hleft : l.filter (fun q => q.key ≠ p.key) = l :=
    List.filter_eq_self.2 fun q hq => by
      have hne : q.key ≠ p.key := fun heq => hl (heq ▸ List.mem_map_of_mem hq)
      simpa using hne
  have hright : r.filter (fun q => q.key ≠ p.key) = r :=
    List.filter_eq_self.2 fun q hq => by
      have hne : q.key ≠ p.key := fun heq => hr (heq ▸ List.mem_map_of_mem hq)
      simpa using hne
  rw [Part.take?, takeDirect?_eq hl, List.filter_append, List.filter_cons, hleft, hright]
  simp

theorem dropKey_eq {k : Key} (hkeys : (children.map Part.key).Nodup)
    (hk : k ∈ children.map Part.key) :
    dropKey children k = children.filter fun p => p.key ≠ k := by
  obtain ⟨p, hp, rfl⟩ := List.mem_map.1 hk
  rw [dropKey, take?_eq hkeys hp]

theorem foldl_dropKey (keys : List Key) (hkeys : keys.Nodup)
    (hchildren : (children.map Part.key).Nodup) (hsub : ∀ k ∈ keys, k ∈ children.map Part.key) :
    keys.foldl dropKey children = children.filter fun p => !keys.contains p.key := by
  induction keys generalizing children with
  | nil => simp
  | cons k keys ih =>
    rw [List.nodup_cons] at hkeys
    rw [List.foldl_cons, dropKey_eq hchildren (hsub k List.mem_cons_self)]
    have hrest : ((children.filter fun p => p.key ≠ k).map Part.key).Nodup :=
      hchildren.sublist (List.Sublist.map _ List.filter_sublist)
    have hmem : ∀ j ∈ keys, j ∈ (children.filter fun p => p.key ≠ k).map Part.key := by
      intro j hj
      obtain ⟨p, hp, rfl⟩ := List.mem_map.1 (hsub j (List.mem_cons_of_mem _ hj))
      have hne : p.key ≠ k := fun heq => hkeys.1 (heq ▸ hj)
      exact List.mem_map_of_mem (List.mem_filter.2 ⟨hp, by simpa using hne⟩)
    rw [ih hkeys.2 hrest hmem, List.filter_filter]
    refine List.filter_congr fun p _ => ?_
    simp [Bool.and_comm]

theorem contains_unused (key : Key) (fields : List ColumnRef) {p : Part}
    (hkeys : (children.map Part.key).Nodup)
    (hp : p ∈ children) :
    (((Supply.start children key).unused.filter fun k => !asked children fields k).contains
      p.key) = !stays fields p := by
  have hself : ∀ q ∈ children, q.key = p.key → q = p := fun q hq hqp =>
    List.inj_on_of_nodup_map hkeys hq hp hqp
  have hasked : asked children fields p.key = fields.any fun f => covers f p := by
    rw [Bool.eq_iff_iff]
    simp only [asked, List.any_eq_true, Bool.and_eq_true, beq_iff_eq]
    constructor
    · rintro ⟨f, hf, q, hq, hqp, hc⟩
      exact ⟨f, hf, hself q hq hqp ▸ hc⟩
    · rintro ⟨f, hf, hc⟩
      exact ⟨f, hf, p, hp, rfl, hc⟩
  have hunused : p.key ∈ (Supply.start children key).unused ↔ p.field?.isSome := by
    simp only [Supply.start, List.mem_map, List.mem_filter]
    constructor
    · rintro ⟨q, ⟨hq, hfield⟩, hqp⟩
      exact hself q hq hqp ▸ hfield
    · exact fun hfield => ⟨p, ⟨hp, hfield⟩, rfl⟩
  rw [Bool.eq_iff_iff]
  simp only [List.contains_eq_mem, decide_eq_true_eq, List.mem_filter, hunused, hasked, stays]
  cases p.field? <;> simp

/-- A supplied list: what stays of the children, and then what no child stands for. -/
theorem supplied_eq (fields : List ColumnRef) (hkeys : (children.map Part.key).Nodup)
    (hlt : ∀ p ∈ children, p.key < key) :
    supplied children key fields =
      (children.filter (stays fields) ++
          columns key (unmet (children.filterMap Part.field?) fields),
        key + (unmet (children.filterMap Part.field?) fields).length) := by
  have hunused : ∀ k ∈ (Supply.start children key).unused, k < key := by
    intro k hk
    obtain ⟨p, hp, rfl⟩ := List.mem_map.1 hk
    exact hlt p (List.mem_filter.1 hp).1
  have hnodup : (Supply.start children key).unused.Nodup :=
    hkeys.sublist (List.Sublist.map _ List.filter_sublist)
  generalize hnew : unmet (children.filterMap Part.field?) fields = new
  have hall : ((children ++ columns key new).map Part.key).Nodup := by
    rw [List.map_append, List.nodup_append]
    refine ⟨hkeys, columns_keys key new ▸ List.nodup_range', ?_⟩
    rintro _ hold _ hcolumn rfl
    obtain ⟨p, hp, hpk⟩ := List.mem_map.1 hold
    obtain ⟨q, hq, hqk⟩ := List.mem_map.1 hcolumn
    exact Nat.not_lt.2 (columns_key_ge hq) (hqk ▸ hpk ▸ hlt p hp)
  have hsub : ∀ k ∈ (Supply.start children key).unused.filter fun k => !asked children fields k,
      k ∈ (children ++ columns key new).map Part.key := by
    intro k hk
    obtain ⟨p, hp, rfl⟩ := List.mem_map.1 (List.mem_filter.1 hk).1
    exact List.mem_map_of_mem (List.mem_append_left _ (List.mem_filter.1 hp).1)
  rw [supplied, foldl_request _ _ hunused]
  simp only [Supply.start] at hnodup hsub ⊢
  rw [hnew, foldl_dropKey _ (hnodup.filter _) hall hsub, List.filter_append]
  congr 2
  · refine List.filter_congr fun p hp => ?_
    have h := contains_unused key fields hkeys hp
    simp only [Supply.start] at h
    rw [h, Bool.not_not]
  · refine List.filter_eq_self.2 fun q hq => ?_
    simp only [Bool.not_eq_true', List.contains_eq_mem, decide_eq_false_iff_not]
    intro hmem
    exact Nat.not_lt.2 (columns_key_ge hq) (hunused _ (List.mem_filter.1 hmem).1)

theorem supplyAll_of_ne_select {ps : List Part} (hps : ∀ p ∈ ps, p.tag ≠ .select) (key : Key) :
    supplyAll fields ps key = (ps, key) := by
  induction ps with
  | nil => rfl
  | cons p ps ih =>
    have hrest := ih fun q hq => hps q (List.mem_cons_of_mem _ hq)
    have hp : p.head.tag ≠ .select := hps p List.mem_cons_self
    match p, hp with
    | .leaf .., _ | .group _ _ _ true, _ => simp [supplyAll, hrest]
    | .group h _ _ false, hp =>
      have htag : h.tag ≠ .select := hp
      simp [supplyAll, hrest, htag]

theorem supplyAll_cons {h : Head} {shape : Shape} {cs ps : List Part} (hselect : h.tag = .select)
    (hps : ∀ p ∈ ps, p.tag ≠ .select) (isClosed : Bool) (key : Key) :
    supplyAll fields (.group h shape cs isClosed :: ps) key =
      if isClosed then (.group h shape cs isClosed :: ps, key)
      else (.group h shape (supplied cs key fields).1 isClosed :: ps, (supplied cs key fields).2) := by
  cases isClosed with
  | true => simp [supplyAll, supplyAll_of_ne_select hps]
  | false => simp [supplyAll, supplyAll_of_ne_select hps, hselect]

end SqlComposer.Draft
