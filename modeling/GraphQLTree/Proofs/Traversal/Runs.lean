import GraphQLTree.Traversal.Transform

/-!
# Runs

Hooks keep a state and may fail. A **run** of a computation from a state is its result, or the error
that it fails with, and the state that is left. A failed step ends a run, and what comes after it has
no effect (`runFrom_bind_error`).
-/

namespace GraphQLTree

variable {ε σ α β : Type}

/-- The result of a computation from a state, and the state after it. -/
def runFrom (x : ExceptT ε (StateM σ) α) (state : σ) : Except ε α × σ :=
  x.run.run state

@[simp]
theorem runFrom_pure (a : α) (state : σ) :
    runFrom (pure a : ExceptT ε (StateM σ) α) state = (.ok a, state) :=
  rfl

@[simp]
theorem runFrom_throw (e : ε) (state : σ) :
    runFrom (throw e : ExceptT ε (StateM σ) α) state = (.error e, state) :=
  rfl

theorem runFrom_bind (x : ExceptT ε (StateM σ) α) (f : α → ExceptT ε (StateM σ) β) (state : σ) :
    runFrom (x >>= f) state =
      match runFrom x state with
      | (.ok a, state') => runFrom (f a) state'
      | (.error e, state') => (.error e, state') := by
  change (match x state with
    | (r, state') => ExceptT.bindCont f r state') = _
  rcases h : x state with ⟨e | a, state'⟩ <;> simp [runFrom, ExceptT.run, StateT.run, h] <;> rfl

theorem runFrom_bind_ok {x : ExceptT ε (StateM σ) α} {f : α → ExceptT ε (StateM σ) β} {a : α}
    {state state' : σ} (h : runFrom x state = (.ok a, state')) :
    runFrom (x >>= f) state = runFrom (f a) state' := by
  rw [runFrom_bind, h]

theorem runFrom_bind_error {x : ExceptT ε (StateM σ) α} {f : α → ExceptT ε (StateM σ) β} {e : ε}
    {state state' : σ} (h : runFrom x state = (.error e, state')) :
    runFrom (x >>= f) state = (.error e, state') := by
  rw [runFrom_bind, h]

end GraphQLTree
