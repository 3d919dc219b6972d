import Mathlib.Algebra.GroupWithZero.Nat
import Mathlib.Data.List.DropRight
import SqlComposer.Session

/-!
# Units of work

What a session sends over a whole run of requests. A request that runs at once sends its own
statement. A commit sends the statements that were queued since the last one, in their order and up
to the first that fails; those behind it are never sent.
-/
namespace SqlComposer

variable {σ : Type}

inductive Exchange where
  | query (sql : String) (answer : Except Fault (List Row))
  | run (sql : String) (answer : Except Fault Nat)

def Provider.recorded (p : Provider σ) : Provider (List Exchange × σ) where
  query sql := do
    let (record, state) ← get
    let (answer, state) := (p.query sql).run state
    set (record ++ [.query sql answer], state)
    return answer
  run sql := do
    let (record, state) ← get
    let (answer, state) := (p.run sql).run state
    set (record ++ [.run sql answer], state)
    return answer

namespace Session

inductive Request where
  | enqueue (q : Compiled)
  | commit
  | fetch (e : Entity) (q : Compiled)
  | fetchRaw (sql : String)
  | execute (q : Compiled)
  | executeRaw (sql : String)

inductive Response where
  | queued
  | count (answer : Except Fault Nat)
  | rows (answer : Except Fault (List Row))

def Request.apply (p : Provider σ) (s : Session) : Request → StateM σ (Response × Session)
  | .enqueue q => pure (.queued, s.enqueue q)
  | .commit => do
    let (answer, s) ← s.commit p
    return (.count answer, s)
  | .fetch e q => return (.rows (← Session.fetch p e q), s)
  | .fetchRaw sql => return (.rows (← Session.fetchRaw p sql), s)
  | .execute q => return (.count (← Session.execute p q.sql), s)
  | .executeRaw sql => return (.count (← Session.execute p sql), s)

def serve (p : Provider σ) (s : Session) : List Request → StateM σ (List Response × Session)
  | [] => pure ([], s)
  | request :: requests => do
    let (response, s) ← request.apply p s
    let (responses, s) ← serve p s requests
    return (response :: responses, s)

/-! ## What a request does -/

/-- A queued statement, with the place of its request in the run. -/
structure Queued where
  place : Nat
  statement : Compiled

def Request.isCommit : Request → Bool
  | .commit => true
  | _ => false

def Request.queued? : Request → Option Compiled
  | .enqueue q => some q
  | _ => none

def waiting (requests : List Request) : List Queued :=
  (requests.zipIdx.rtakeWhile fun r => !r.1.isCommit).filterMap fun r =>
    r.1.queued?.map (.mk r.2)

def Queued.succeeded (w : Queued) (count : Nat) : Exchange :=
  .run w.statement.sql (.ok count)

def Queued.failed (w : Queued) (fault : Fault) : Exchange :=
  .run w.statement.sql (.error fault)

/-- A commit of the statements, its answer, and what it sent: all of them, or those up to and
including the first that fails. -/
inductive Commits : List Queued → Except Fault Nat → List Exchange → List Queued → Prop where
  | all (statements : List Queued) (counts : List Nat)
      (length_eq : counts.length = statements.length) :
      Commits statements (.ok counts.sum) (List.zipWith Queued.succeeded statements counts)
        statements
  | stopped (done : List Queued) (failing : Queued) (skipped : List Queued) (counts : List Nat)
      (fault : Fault) (length_eq : counts.length = done.length) :
      Commits (done ++ failing :: skipped) (.error fault)
        (List.zipWith Queued.succeeded done counts ++ [failing.failed fault]) (done ++ [failing])

/-- What a request was answered, what it sent, and which queued statements these were. -/
structure Receipt where
  response : Response
  exchanges : List Exchange
  sent : List Queued

/-- What a request does while statements are waiting: only a commit sends any of them. -/
inductive Fulfils (statements : List Queued) : Request → Receipt → Prop where
  | enqueue (q : Compiled) : Fulfils statements (.enqueue q) ⟨.queued, [], []⟩
  | commit {answer : Except Fault Nat} {exchanges : List Exchange} {sent : List Queued}
      (commits : Commits statements answer exchanges sent) :
      Fulfils statements .commit ⟨.count answer, exchanges, sent⟩
  | fetch (e : Entity) (q : Compiled) (answer : Except Fault (List Row)) :
      Fulfils statements (.fetch e q)
        ⟨.rows (answer.map (List.map
          (Row.convert (FieldDef.matchTree (Schema.ofEntity e).fields q.tree)))),
          [.query q.sql answer], []⟩
  | fetchRaw (sql : String) (answer : Except Fault (List Row)) :
      Fulfils statements (.fetchRaw sql) ⟨.rows answer, [.query sql answer], []⟩
  | execute (q : Compiled) (answer : Except Fault Nat) :
      Fulfils statements (.execute q) ⟨.count answer, [.run q.sql answer], []⟩
  | executeRaw (sql : String) (answer : Except Fault Nat) :
      Fulfils statements (.executeRaw sql) ⟨.count answer, [.run sql answer], []⟩

inductive Served : List Request → List Receipt → Prop where
  | nil : Served [] []
  | concat {requests : List Request} {receipts : List Receipt} {request : Request}
      {receipt : Receipt} (served : Served requests receipts)
      (fulfils : Fulfils (waiting requests) request receipt) :
      Served (requests ++ [request]) (receipts ++ [receipt])

variable {requests : List Request} {receipts : List Receipt} {request : Request}

theorem waiting_concat (requests : List Request) (request : Request) :
    waiting (requests ++ [request]) =
      if request.isCommit then []
      else waiting requests ++ (request.queued?.map (.mk requests.length)).toList := by
  rw [waiting, List.zipIdx_append, List.zipIdx_singleton, List.rtakeWhile_concat]
  cases h : request.isCommit with
  | true => rfl
  | false =>
    simp only [Bool.not_false, if_true, List.filterMap_append, Bool.false_eq_true, if_false]
    cases h : request.queued? <;> simp [waiting, h]

theorem Commits.cons {statements sent : List Queued} {answer : Except Fault Nat}
    {exchanges : List Exchange} (h : Commits statements answer exchanges sent) (w : Queued)
    (count : Nat) :
    Commits (w :: statements) (answer.map (count + ·)) (w.succeeded count :: exchanges)
      (w :: sent) := by
  cases h with
  | all _ counts hlength =>
    exact .all (w :: statements) (count :: counts) (congrArg (· + 1) hlength)
  | stopped done failing skipped counts fault hlength =>
    exact .stopped (w :: done) failing skipped (count :: counts) fault (congrArg (· + 1) hlength)

theorem Commits.sent_prefix {statements sent : List Queued} {answer : Except Fault Nat}
    {exchanges : List Exchange} (h : Commits statements answer exchanges sent) :
    sent <+: statements := by
  cases h with
  | all => exact List.prefix_rfl
  | stopped done failing skipped => exact ⟨skipped, by simp⟩

theorem Fulfils.sent_prefix {statements : List Queued} {receipt : Receipt}
    (h : Fulfils statements request receipt) : receipt.sent <+: statements := by
  cases h with
  | commit commits => exact commits.sent_prefix
  | enqueue | fetch | fetchRaw | execute | executeRaw => exact List.nil_prefix

theorem Fulfils.sent_eq_nil {statements : List Queued} {receipt : Receipt}
    (h : Fulfils statements request receipt) (hcommit : request.isCommit = false) :
    receipt.sent = [] := by
  cases h with
  | commit => cases hcommit
  | enqueue | fetch | fetchRaw | execute | executeRaw => rfl

/-! ## What a run does -/

section

variable {p : Provider σ} {state next : σ} {sql : String}

theorem run_bind_pure {α β τ : Type} {m : StateM τ α} {a : α} {state next : τ}
    (h : m.run state = (a, next)) (f : α → β) :
    (m >>= fun a => pure (f a)).run state = (f a, next) := by
  rw [StateT.run_bind, h]
  rfl

theorem recorded_query {answer : Except Fault (List Row)}
    (h : (p.query sql).run state = (answer, next)) (record : List Exchange) :
    (p.recorded.query sql).run (record, state) =
      (answer, record ++ [Exchange.query sql answer], next) := by
  simp only [Provider.recorded, StateT.run_bind, StateT.run_get, pure_bind, h]
  rfl

theorem recorded_run {answer : Except Fault Nat} (h : (p.run sql).run state = (answer, next))
    (record : List Exchange) :
    (p.recorded.run sql).run (record, state) =
      (answer, record ++ [Exchange.run sql answer], next) := by
  simp only [Provider.recorded, StateT.run_bind, StateT.run_get, pure_bind, h]
  rfl

theorem runAll_cons_ok {count : Nat} (h : (p.run sql).run state = (.ok count, next))
    (rest : List String) (total : Nat) :
    (runAll p (sql :: rest) total).run state = (runAll p rest (total + count)).run next := by
  rw [runAll, StateT.run_bind, h]
  rfl

theorem runAll_cons_error {fault : Fault} (h : (p.run sql).run state = (.error fault, next))
    (rest : List String) (total : Nat) :
    (runAll p (sql :: rest) total).run state = (.error fault, next) := by
  rw [runAll, StateT.run_bind, h]
  rfl

theorem run_fetch {e : Entity} {q : Compiled} {answer : Except Fault (List Row)}
    (h : (p.query q.sql).run state = (answer, next)) :
    (Session.fetch p e q).run state =
      (answer.map (List.map (Row.convert (FieldDef.matchTree (Schema.ofEntity e).fields q.tree))),
        next) := by
  rw [Session.fetch, StateT.run_bind, h]
  cases answer <;> rfl

end

theorem runAll_recorded (p : Provider σ) (statements : List Queued) (total : Nat)
    (record : List Exchange) (state : σ) :
    ∃ answer exchanges sent state', Commits statements answer exchanges sent ∧
      (runAll p (statements.map fun w => w.statement.sql) total).run state =
        (answer.map (total + ·), state') ∧
      (runAll p.recorded (statements.map fun w => w.statement.sql) total).run (record, state) =
        (answer.map (total + ·), record ++ exchanges, state') := by
  induction statements generalizing total record state with
  | nil =>
    refine ⟨_, _, _, state, .all [] [] rfl, rfl, ?_⟩
    exact congrArg (fun r => (Except.ok total, r, state)) (List.append_nil record).symm
  | cons w statements ih =>
    obtain ⟨⟨answer, next⟩, hrun⟩ : ∃ r, (p.run w.statement.sql).run state = r := ⟨_, rfl⟩
    have hrecorded := recorded_run hrun record
    cases answer with
    | ok count =>
      obtain ⟨answer, exchanges, sent, state', hcommits, hplain, hrest⟩ :=
        ih (total + count) (record ++ [w.succeeded count]) next
      -- the count goes into the total of the rest, and out of it into the answer
      have hanswer : answer.map (total + count + ·) =
          (answer.map (count + ·)).map (total + ·) := by
        cases answer with
        | ok n => exact congrArg Except.ok (Nat.add_assoc total count n)
        | error => rfl
      rw [hanswer] at hplain hrest
      rw [List.append_assoc, List.singleton_append] at hrest
      refine ⟨_, _, _, state', hcommits.cons w count, ?_, ?_⟩
      · exact (runAll_cons_ok hrun _ total).trans hplain
      · exact (runAll_cons_ok hrecorded _ total).trans hrest
    | error fault =>
      refine ⟨_, _, _, next, .stopped [] w statements [] fault rfl, ?_, ?_⟩
      · exact runAll_cons_error hrun _ total
      · exact runAll_cons_error hrecorded _ total

def after (c : Compiler) (requests : List Request) : Session :=
  ⟨c, (waiting requests).map Queued.statement⟩

theorem after_concat (c : Compiler) (requests : List Request) (request : Request) :
    after c (requests ++ [request]) =
      if request.isCommit then ⟨c, []⟩
      else request.queued?.elim (after c requests) (after c requests).enqueue := by
  rw [after, waiting_concat]
  cases request <;> simp [Request.isCommit, Request.queued?, after, Session.enqueue]

theorem apply_after (p : Provider σ) (c : Compiler) (requests : List Request) (request : Request)
    (record : List Exchange) (state : σ) :
    ∃ receipt state', Fulfils (waiting requests) request receipt ∧
      (request.apply p (after c requests)).run state =
        ((receipt.response, after c (requests ++ [request])), state') ∧
      (request.apply p.recorded (after c requests)).run (record, state) =
        ((receipt.response, after c (requests ++ [request])),
          record ++ receipt.exchanges, state') := by
  rw [after_concat]
  cases request with
  | enqueue q =>
    refine ⟨_, state, .enqueue q, rfl, ?_⟩
    exact congrArg (fun record => (_, record, state)) (List.append_nil record).symm
  | commit =>
    obtain ⟨answer, exchanges, sent, state', hcommits, hplain, hrecorded⟩ :=
      runAll_recorded p (waiting requests) 0 record state
    have hanswer : answer.map (0 + ·) = answer := by
      cases answer with
      | ok n => exact congrArg Except.ok (Nat.zero_add n)
      | error => rfl
    have hsql : ((after c requests).pending.map Compiled.sql) =
        (waiting requests).map fun w => w.statement.sql := List.map_map
    rw [hanswer, ← hsql] at hplain hrecorded
    refine ⟨_, state', .commit hcommits, ?_, ?_⟩
    · exact run_bind_pure (run_bind_pure hplain _) _
    · exact run_bind_pure (run_bind_pure hrecorded _) _
  | fetch e q =>
    obtain ⟨⟨answer, next⟩, h⟩ : ∃ r, (p.query q.sql).run state = r := ⟨_, rfl⟩
    refine ⟨_, next, .fetch e q answer, ?_, ?_⟩
    · exact run_bind_pure (run_fetch h) _
    · exact run_bind_pure (run_fetch (recorded_query h record)) _
  | fetchRaw sql =>
    obtain ⟨⟨answer, next⟩, h⟩ : ∃ r, (p.query sql).run state = r := ⟨_, rfl⟩
    refine ⟨_, next, .fetchRaw sql answer, ?_, ?_⟩
    · exact run_bind_pure h _
    · exact run_bind_pure (recorded_query h record) _
  | execute q =>
    obtain ⟨⟨answer, next⟩, h⟩ : ∃ r, (p.run q.sql).run state = r := ⟨_, rfl⟩
    refine ⟨_, next, .execute q answer, ?_, ?_⟩
    · exact run_bind_pure h _
    · exact run_bind_pure (recorded_run h record) _
  | executeRaw sql =>
    obtain ⟨⟨answer, next⟩, h⟩ : ∃ r, (p.run sql).run state = r := ⟨_, rfl⟩
    refine ⟨_, next, .executeRaw sql answer, ?_, ?_⟩
    · exact run_bind_pure h _
    · exact run_bind_pure (recorded_run h record) _

theorem serve_concat {p : Provider σ} {s mid last : Session} {response : Response}
    {responses : List Response} {state state' state'' : σ}
    (h : (serve p s requests).run state = ((responses, mid), state'))
    (hlast : (request.apply p mid).run state' = ((response, last), state'')) :
    (serve p s (requests ++ [request])).run state =
      ((responses ++ [response], last), state'') := by
  induction requests generalizing s responses state with
  | nil =>
    cases h
    rw [List.nil_append, serve, StateT.run_bind, hlast]
    rfl
  | cons first requests ih =>
    rw [serve, StateT.run_bind] at h
    -- named results, since the run of the first request is stuck on a provider that is not known
    obtain ⟨⟨⟨r, s'⟩, st⟩, hfirst⟩ : ∃ r, (first.apply p s).run state = r := ⟨_, rfl⟩
    obtain ⟨⟨⟨rs, s''⟩, st'⟩, hrest⟩ : ∃ r, (serve p s' requests).run st = r := ⟨_, rfl⟩
    rw [hfirst] at h
    have hrun := run_bind_pure hrest fun a => (r :: a.1, a.2)
    cases (hrun.symm.trans h)
    rw [List.cons_append, serve, StateT.run_bind, hfirst]
    exact run_bind_pure (ih hrest) fun a => (r :: a.1, a.2)

theorem exists_served (p : Provider σ) (c : Compiler) (requests : List Request) (state : σ) :
    ∃ receipts state', Served requests receipts ∧
      (serve p ⟨c, []⟩ requests).run state =
        ((receipts.map Receipt.response, after c requests), state') ∧
      (serve p.recorded ⟨c, []⟩ requests).run ([], state) =
        ((receipts.map Receipt.response, after c requests),
          receipts.flatMap Receipt.exchanges, state') := by
  induction requests using List.reverseRecOn with
  | nil => exact ⟨[], state, .nil, rfl, rfl⟩
  | append_singleton requests request ih =>
    obtain ⟨receipts, mid, hserved, hplain, hrecorded⟩ := ih
    obtain ⟨receipt, state', hfulfils, hlast, hlast'⟩ :=
      apply_after p c requests request (receipts.flatMap Receipt.exchanges) mid
    refine ⟨receipts ++ [receipt], state', hserved.concat hfulfils, ?_, ?_⟩
    · rw [List.map_append]
      exact serve_concat hplain hlast
    · rw [List.map_append, List.flatMap_append, List.flatMap_singleton]
      exact serve_concat hrecorded hlast'

/-! ## No statement twice, and none out of order -/

def sent (receipts : List Receipt) : List Queued :=
  receipts.flatMap Receipt.sent

theorem Served.length_eq (h : Served requests receipts) : receipts.length = requests.length := by
  induction h with
  | nil => rfl
  | concat _ _ ih => rw [List.length_append, List.length_append, ih]; rfl

theorem getElem?_of_mem_waiting {w : Queued} (hw : w ∈ waiting requests) :
    requests[w.place]? = some (.enqueue w.statement) := by
  obtain ⟨⟨request, place⟩, hmem, hw⟩ := List.mem_filterMap.1 hw
  obtain ⟨q, hq, rfl⟩ := Option.map_eq_some_iff.1 hw
  have hzip := (List.rtakeWhile_suffix _ requests.zipIdx).subset hmem
  have hrequest : requests[place]? = some request := List.mk_mem_zipIdx_iff_getElem?.1 hzip
  cases request with
  | enqueue => exact hrequest.trans (congrArg _ (congrArg _ (Option.some.inj hq)))
  | commit | fetch | fetchRaw | execute | executeRaw => cases hq

/-- A request adds nothing to the statements that were sent or wait but the one it queues. -/
theorem sent_append_waiting_concat (receipts : List Receipt) {receipt : Receipt}
    (h : Fulfils (waiting requests) request receipt) :
    (sent (receipts ++ [receipt]) ++ waiting (requests ++ [request])).Sublist
      (sent receipts ++ waiting requests ++
        (request.queued?.map (.mk requests.length)).toList) := by
  rw [sent, List.flatMap_append, List.flatMap_singleton, waiting_concat]
  cases hcommit : request.isCommit with
  | true =>
    rw [if_pos rfl, List.append_nil]
    exact (h.sent_prefix.sublist.append_left _).trans (List.sublist_append_left _ _)
  | false =>
    rw [if_neg Bool.false_ne_true, h.sent_eq_nil hcommit, List.append_nil, ← List.append_assoc]
    exact .refl _

/-- What is known of the statements of a run: those sent and those waiting stand in the order in
which they were queued, and what a commit skipped is neither. -/
structure Settled (requests : List Request) (receipts : List Receipt) : Prop where
  ascending : (sent receipts ++ waiting requests).Pairwise fun w w' => w.place < w'.place
  queued : ∀ w ∈ sent receipts ++ waiting requests,
    requests[w.place]? = some (.enqueue w.statement)
  skipped : ∀ i receipt, requests[i]? = some .commit → receipts[i]? = some receipt →
    ∀ w ∈ waiting (requests.take i), w ∉ receipt.sent → w ∉ sent receipts ++ waiting requests

namespace Settled

variable {receipt : Receipt} (h : Settled requests receipts)

include h

theorem place_lt {w : Queued} (hw : w ∈ sent receipts ++ waiting requests) :
    w.place < requests.length :=
  (List.getElem?_eq_some_iff.1 (h.queued w hw)).1

theorem not_mem_of_commit {w : Queued} (hw : w ∈ waiting requests) (hskipped : w ∉ receipt.sent) :
    w ∉ sent (receipts ++ [receipt]) ++ waiting (requests ++ [Request.commit]) := by
  have hnone : waiting (requests ++ [Request.commit]) = [] :=
    (waiting_concat requests .commit).trans (if_pos rfl)
  rw [hnone, List.append_nil, sent, List.flatMap_append, List.flatMap_singleton]
  intro hmem
  obtain hmem | hmem := List.mem_append.1 hmem
  · exact Nat.lt_irrefl _ ((List.pairwise_append.1 h.ascending).2.2 w hmem w hw)
  · exact hskipped hmem

theorem step (hlength : receipts.length = requests.length)
    (hfulfils : Fulfils (waiting requests) request receipt) :
    Settled (requests ++ [request]) (receipts ++ [receipt]) := by
  have hsub := sent_append_waiting_concat receipts hfulfils
  have hnew : ∀ w ∈ (request.queued?.map (Queued.mk requests.length)).toList,
      w.place = requests.length ∧ request = .enqueue w.statement := by
    cases request <;> simp [Request.queued?]
  constructor
  · refine List.Pairwise.sublist hsub (List.pairwise_append.2 ⟨h.ascending, ?_, ?_⟩)
    · cases request <;> simp [Request.queued?]
    · intro w hw w' hw'
      exact (h.place_lt hw).trans_eq (hnew w' hw').1.symm
  · intro w hw
    obtain hw | hw := List.mem_append.1 (hsub.subset hw)
    · rw [List.getElem?_append_left (h.place_lt hw)]
      exact h.queued w hw
    · obtain ⟨hw, hrequest⟩ := hnew w hw
      rw [hw, List.getElem?_concat_length, hrequest]
  · intro i receipt' hrequest hreceipt w hw hskipped
    have hi : i ≤ requests.length := by
      have hlt := (List.getElem?_eq_some_iff.1 hrequest).1
      rw [List.length_append, List.length_singleton] at hlt
      exact Nat.le_of_lt_succ hlt
    rw [List.take_append_of_le_length hi] at hw
    obtain hlt | rfl := hi.lt_or_eq
    · rw [List.getElem?_append_left hlt] at hrequest
      rw [List.getElem?_append_left (hlength ▸ hlt)] at hreceipt
      intro hmem
      obtain hmem | hmem := List.mem_append.1 (hsub.subset hmem)
      · exact h.skipped i receipt' hrequest hreceipt w hw hskipped hmem
      · -- the statement queued last stands behind every statement that was ever skipped
        have hbefore := (List.getElem?_eq_some_iff.1 (getElem?_of_mem_waiting hw)).1
        rw [(hnew w hmem).1, List.length_take] at hbefore
        omega
    · rw [List.getElem?_concat_length] at hrequest
      rw [← hlength, List.getElem?_concat_length] at hreceipt
      cases hrequest
      cases hreceipt
      rw [List.take_length] at hw
      exact h.not_mem_of_commit hw hskipped

end Settled

theorem Served.settled (h : Served requests receipts) : Settled requests receipts := by
  induction h with
  | nil => exact ⟨.nil, by simp [sent, waiting], by simp⟩
  | concat hserved hfulfils ih => exact ih.step hserved.length_eq hfulfils

/-- A run of requests has a receipt for each: a commit sends the statements queued since the last
one, or those up to and including the first that fails, and leaves none waiting; every other request
sends its own statement or nothing. Over the whole run the queued statements are sent in the order
in which they were queued, none of them twice, and none that a commit skipped. -/
theorem commits_send_in_order (p : Provider σ) (c : Compiler) (requests : List Request)
    (state : σ) :
    ∃ receipts state', Served requests receipts ∧
      (serve p ⟨c, []⟩ requests).run state =
        ((receipts.map Receipt.response, after c requests), state') ∧
      (serve p.recorded ⟨c, []⟩ requests).run ([], state) =
        ((receipts.map Receipt.response, after c requests),
          receipts.flatMap Receipt.exchanges, state') ∧
      (requests.getLast? = some .commit → (after c requests).pending = []) ∧
      ((sent receipts).Pairwise fun w w' => w.place < w'.place) ∧
      (∀ w ∈ sent receipts, requests[w.place]? = some (.enqueue w.statement)) ∧
      ∀ i receipt, requests[i]? = some .commit → receipts[i]? = some receipt →
        ∀ w ∈ waiting (requests.take i), w ∉ receipt.sent → w ∉ sent receipts := by
  obtain ⟨receipts, state', hserved, hplain, hrecorded⟩ := exists_served p c requests state
  obtain ⟨hascending, hqueued, hskipped⟩ := hserved.settled
  refine ⟨receipts, state', hserved, hplain, hrecorded, ?_, ?_, ?_, ?_⟩
  · intro hlast
    obtain ⟨before, rfl⟩ := List.getLast?_eq_some_iff.1 hlast
    rw [after_concat]
    rfl
  · exact (List.pairwise_append.1 hascending).1
  · exact fun w hw => hqueued w (List.mem_append_left _ hw)
  · intro i receipt hcommit hreceipt w hw hskip hsent
    exact hskipped i receipt hcommit hreceipt w hw hskip (List.mem_append_left _ hsent)

/-- The second of three statements fails: the third is not sent, not even by a later commit. -/
example :
    let queue (sql : String) : Request := .enqueue ⟨sql, {}⟩
    let script : Script := { faults := [(1, .noPrimaryKey "T")] }
    ((serve script.provider ⟨{}, []⟩ [queue "a", queue "b", queue "c", .commit,
      .executeRaw "d", queue "e", .commit]).run []).2 =
      [.run "a", .run "b", .run "d", .run "e"] :=
  rfl

end Session

end SqlComposer
