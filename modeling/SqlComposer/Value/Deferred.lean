import SqlComposer.Value

/-!
# Deferred values

A deferred value is computed when it is first read. Copies of it share one cell, so its function
runs at most once for all of them. An operation that may read deferred values is a `Reading`: its
result together with the values it read, in order. A `Memo` remembers which cells hold a value
already and which functions have run.
-/
namespace SqlComposer

/-- A value that `function` computes into `cell`, with the answer that the function gives. -/
structure Deferred where
  cell : Nat
  function : Nat
  result : Value

structure Reading (α : Type) where
  value : α
  reads : List Deferred

namespace Reading

variable {α β : Type}

instance : Monad Reading where
  pure a := ⟨a, []⟩
  bind x f := ⟨(f x.value).value, x.reads ++ (f x.value).reads⟩

@[simp] theorem value_pure (a : α) : (pure a : Reading α).value = a := rfl

@[simp] theorem reads_pure (a : α) : (pure a : Reading α).reads = [] := rfl

@[simp] theorem value_bind (x : Reading α) (f : α → Reading β) :
    (x >>= f).value = (f x.value).value := rfl

@[simp] theorem reads_bind (x : Reading α) (f : α → Reading β) :
    (x >>= f).reads = x.reads ++ (f x.value).reads := rfl

@[ext] theorem ext {x y : Reading α} (value : x.value = y.value) (reads : x.reads = y.reads) :
    x = y := by
  cases x
  cases y
  simp_all

end Reading

def Deferred.read (d : Deferred) : Reading Value :=
  ⟨d.result, [d]⟩

/-- The cells that hold a value and the functions that ran, latest first. -/
structure Memo where
  evaluated : List Nat
  calls : List Nat
  deriving DecidableEq, Repr

namespace Memo

def empty : Memo := ⟨[], []⟩

/-- A cell that holds a value answers by itself; otherwise its function runs. -/
def read (m : Memo) (d : Deferred) : Memo :=
  if d.cell ∈ m.evaluated then m else ⟨d.cell :: m.evaluated, d.function :: m.calls⟩

def after {α : Type} (m : Memo) (x : Reading α) : Memo :=
  x.reads.foldl read m

def isEvaluated (m : Memo) (d : Deferred) : Bool :=
  d.cell ∈ m.evaluated

def callCount (m : Memo) (function : Nat) : Nat :=
  m.calls.count function

end Memo

def Deferred.debugText (m : Memo) (d : Deferred) : String :=
  if m.isEvaluated d then "Deferred(" ++ d.result.debugText ++ ")" else "Deferred(<pending>)"

end SqlComposer
