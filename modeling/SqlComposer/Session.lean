import SqlComposer.Compiler
import SqlComposer.Schema
import SqlComposer.Statement.Select

/-!
# Sessions

A session runs statements against a provider. Statements without a result can be queued and
committed together: they run in order, the first failure ends the commit, and the queue is empty
afterwards in any case.
-/
namespace SqlComposer

/-- What answers SQL. Its answers may depend on everything it was sent before. -/
structure Provider (σ : Type) where
  /-- run a statement that yields rows -/
  query : String → StateM σ (Except Fault (List Row))
  /-- run a statement that yields none; the answer counts the rows it touched -/
  run : String → StateM σ (Except Fault Nat)

structure Session where
  compiler : Compiler
  pending : List Compiled := []

namespace Session

variable {σ : Type}

def select (s : Session) (e : Entity) : Select :=
  .ofEntity s.compiler e

def enqueue (s : Session) (q : Compiled) : Session :=
  { s with pending := s.pending ++ [q] }

/-- Run statements in order up to the first failure, adding up the rows they touch. -/
def runAll (p : Provider σ) : List String → Nat → StateM σ (Except Fault Nat)
  | [], total => pure (.ok total)
  | sql :: rest, total => do
    match ← p.run sql with
    | .ok n => runAll p rest (total + n)
    | .error e => pure (.error e)

/-- Run the queued statements; the queue is empty afterwards. -/
def commit (s : Session) (p : Provider σ) : StateM σ (Except Fault Nat × Session) := do
  let answer ← runAll p (s.pending.map Compiled.sql) 0
  return (answer, { s with pending := [] })

def execute (p : Provider σ) (sql : String) : StateM σ (Except Fault Nat) :=
  p.run sql

def fetchRaw (p : Provider σ) (sql : String) : StateM σ (Except Fault (List Row)) :=
  p.query sql

/-- Rows of a query whose result is an entity, with the converters of its columns applied. -/
def fetch (p : Provider σ) (e : Entity) (q : Compiled) :
    StateM σ (Except Fault (List Row)) := do
  let fields := FieldDef.matchTree (Schema.ofEntity e).fields q.tree
  match ← p.query q.sql with
  | .ok rows => return .ok (rows.map (Row.convert fields))
  | .error e => return .error e

end Session

inductive Call where
  | query (sql : String)
  | run (sql : String)
  deriving DecidableEq, Repr

def Call.text : Call → String
  | .query sql => "query: " ++ sql
  | .run sql => "run: " ++ sql

/-- A provider's answers fixed in advance: the same rows and the same count for every call, but a
fault for the calls listed by their number. -/
structure Script where
  rows : List Row := []
  affected : Nat := 1
  faults : List (Nat × Fault) := []

namespace Script

def receive (s : Script) (c : Call) : StateM (List Call) (Option Fault) := do
  let calls ← get
  set (calls ++ [c])
  return s.faults.lookup calls.length

/-- The provider that answers from the script and records its calls in order. -/
def provider (s : Script) : Provider (List Call) where
  query sql := do
    match ← s.receive (.query sql) with
    | some e => return .error e
    | none => return .ok s.rows
  run sql := do
    match ← s.receive (.run sql) with
    | some e => return .error e
    | none => return .ok s.affected

end Script

end SqlComposer
