/-! # Work in place

    A state may be kept in one place and be changed there, one field after the
    other. What was changed before a failure then stays changed: nothing puts
    it back but the work itself. An operation that returns a new state cannot
    leave half of its work behind, and the two are compared by what they leave
    (`settled`).
-/

namespace NaturalDeduction

/-- Work on a state in place. What was changed before a failure stays changed. -/
abbrev Mutation (σ ε : Type) : Type → Type := ExceptT ε (StateM σ)

namespace Mutation

variable {σ ε α β : Type}

/-- The result of the work, and the state that it leaves. -/
def outcome (x : Mutation σ ε α) (s : σ) : Except ε α × σ := x.run.run s

/-- Work that changes nothing. -/
def ofExcept (x : Except ε α) : Mutation σ ε α :=
  match x with
  | .ok a => pure a
  | .error e => throw e

@[simp] theorem outcome_pure (a : α) (s : σ) :
    outcome (pure a : Mutation σ ε α) s = (.ok a, s) := rfl

@[simp] theorem outcome_throw (e : ε) (s : σ) :
    outcome (throw e : Mutation σ ε α) s = (.error e, s) := rfl

@[simp] theorem outcome_get (s : σ) : outcome (get : Mutation σ ε σ) s = (.ok s, s) := rfl

@[simp] theorem outcome_set (s s' : σ) :
    outcome (set s' : Mutation σ ε PUnit) s = (.ok ⟨⟩, s') := rfl

@[simp] theorem outcome_modify (g : σ → σ) (s : σ) :
    outcome (modify g : Mutation σ ε PUnit) s = (.ok ⟨⟩, g s) := rfl

@[simp] theorem outcome_ofExcept (x : Except ε α) (s : σ) :
    outcome (ofExcept x : Mutation σ ε α) s = (x, s) := by
  cases x <;> rfl

/-- Work in two parts: the second one starts where the first one ended. -/
theorem outcome_bind (x : Mutation σ ε α) (f : α → Mutation σ ε β) (s : σ) :
    outcome (x >>= f) s =
      match outcome x s with
      | (.ok a, s') => outcome (f a) s'
      | (.error e, s') => (.error e, s') := by
  simp only [outcome, ExceptT.run_bind, StateT.run_bind]
  obtain ⟨r, s'⟩ := x.run.run s
  cases r <;> rfl

/-- Work with a handler: that one starts where the failure left the state. -/
theorem outcome_tryCatch (x : Mutation σ ε α) (handle : ε → Mutation σ ε α) (s : σ) :
    outcome (tryCatch x handle) s =
      match outcome x s with
      | (.ok a, s') => (.ok a, s')
      | (.error e, s') => outcome (handle e) s' := by
  simp only [outcome, ExceptT.run_tryCatch, StateT.run_bind]
  obtain ⟨r, s'⟩ := x.run.run s
  cases r <;> rfl

end Mutation

/-- What an operation leaves in place: the state that it returns, or the state from before if it
    fails. -/
def settled {σ ε α : Type} (s : σ) : Except ε (α × σ) → Except ε α × σ
  | .ok (a, s') => (.ok a, s')
  | .error e => (.error e, s)

end NaturalDeduction
