import SqlComposer.Part.Render

/-!
# Outcomes

What a rendering ends with, whatever deferred values were read on the way, and what holds behind
steps of which each may fail.
-/
namespace SqlComposer

theorem toOption_eq_some {ε α : Type} {x : Except ε α} {a : α} :
    x.toOption = some a ↔ x = .ok a := by
  cases x <;> simp [Except.toOption]

theorem toOption_eq_none {ε α : Type} {x : Except ε α} :
    x.toOption = none ↔ ∃ e, x = .error e := by
  cases x <;> simp [Except.toOption]

/-- What each step keeps up, for itself and the steps so far, holds behind all of them. -/
theorem foldlM_induction {ε α β : Type} {f : β → α → Except ε β} {I : List α → β → Prop}
    (before : List α) {as : List α} {b b' : β}
    (hstep : ∀ {as : List α} {a : α} {b b' : β}, I as b → f b a = .ok b' → I (as ++ [a]) b')
    (h : I before b) (hfold : as.foldlM f b = .ok b') : I (before ++ as) b' := by
  induction as generalizing before b with
  | nil =>
    cases hfold
    rwa [List.append_nil]
  | cons a as ih =>
    rw [List.foldlM_cons] at hfold
    cases ha : f b a with
    | error =>
      rw [ha] at hfold
      cases hfold
    | ok next =>
      rw [ha] at hfold
      rw [List.append_cons]
      exact ih (before ++ [a]) (hstep h ha) hfold

namespace Rendering

variable {α β : Type}

def outcome (x : Rendering α) : Except Fault α :=
  x.run.value

@[simp] theorem outcome_liftExcept (x : Except Fault α) : (liftM x : Rendering α).outcome = x := rfl

@[simp] theorem outcome_bind (x : Rendering α) (f : α → Rendering β) :
    (x >>= f).outcome = x.outcome >>= fun a => (f a).outcome := by
  simp only [outcome, ExceptT.run_bind, Reading.value_bind]
  cases x.run.value <;> rfl

theorem outcome_bind_of_error {x : Rendering α} {e : Fault} (h : x.outcome = .error e)
    (f : α → Rendering β) : (x >>= f).outcome = .error e := by
  rw [outcome_bind, h]
  rfl

theorem outcome_bind_eq_ok {x : Rendering α} {f : α → Rendering β} {b : β}
    (h : (x >>= f).outcome = .ok b) : ∃ a, x.outcome = .ok a ∧ (f a).outcome = .ok b := by
  rw [outcome_bind] at h
  cases ha : x.outcome with
  | error e =>
    rw [ha] at h
    cases h
  | ok a => exact ⟨a, rfl, by rwa [ha] at h⟩

theorem reads_lift (x : Reading α) : (ExceptT.lift x : Rendering α).run.reads = x.reads :=
  List.append_nil _

theorem reads_bind_of_ok {x : Rendering α} {a : α} (hx : x.outcome = .ok a)
    (f : α → Rendering β) : (x >>= f).run.reads = x.run.reads ++ (f a).run.reads := by
  rw [outcome] at hx
  rw [ExceptT.run_bind, Reading.reads_bind, hx]

def result? (x : Rendering α) : Option α :=
  x.outcome.toOption

theorem result?_eq_some {x : Rendering α} {a : α} : x.result? = some a ↔ x.outcome = .ok a :=
  toOption_eq_some

@[simp] theorem result?_pure (a : α) : (pure a : Rendering α).result? = some a := rfl

@[simp] theorem result?_liftExcept (x : Except Fault α) :
    (liftM x : Rendering α).result? = x.toOption := rfl

@[simp] theorem result?_bind (x : Rendering α) (f : α → Rendering β) :
    (x >>= f).result? = x.result?.bind fun a => (f a).result? := by
  rw [result?, outcome_bind, result?]
  cases x.outcome <;> rfl

theorem result?_liftExcept_bind (x : Except Fault α) (f : α → Reading β) :
    ((liftM x : Rendering α) >>= fun a => ExceptT.lift (f a)).result? =
      x.toOption.map fun a => (f a).value := by
  rw [result?_bind, result?_liftExcept]
  cases x.toOption <;> rfl

def fault? (x : Rendering α) : Option Fault :=
  match x.outcome with
  | .error f => some f
  | .ok _ => none

theorem fault?_eq_some {x : Rendering α} {f : Fault} :
    x.fault? = some f ↔ x.outcome = .error f := by
  rw [fault?]
  cases x.outcome <;> simp

theorem fault?_eq_none {x : Rendering α} : x.fault? = none ↔ ∃ a, x.outcome = .ok a := by
  rw [fault?]
  cases x.outcome <;> simp

@[simp] theorem fault?_bind_pure (x : Rendering α) (g : α → β) :
    (x >>= fun a => pure (g a)).fault? = x.fault? := by
  rw [fault?, outcome_bind, fault?]
  cases x.outcome <;> rfl

/-- Of two renderings in a row that do not depend on each other, the first that fails counts. -/
theorem fault?_bind_bind {γ : Type} (x : Rendering α) (y : Rendering β) (g : α → β → γ) :
    (x >>= fun a => y >>= fun b => pure (g a b)).fault? = x.fault?.or y.fault? := by
  simp only [fault?, outcome_bind]
  cases x.outcome with
  | error => rfl
  | ok => cases y.outcome <;> rfl

end Rendering

end SqlComposer
