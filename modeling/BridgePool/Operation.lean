import BridgePool.Store.Rows

/-!
# Operations

An `Operation σ α` changes a state of type `σ` and answers a value or a fault, together with the
state it leaves. That state is part of the answer also when the operation stops: whoever runs it
decides whether to keep what was written before the fault (`Operation.atomic` does not).

Operations are put together from few steps: `require` a condition, `lift` a computation that does
not touch the state, `read` the state, `update` it. `run_bind` and its companions say what each
step does to the state.
-/

namespace BridgePool

/-- A change of state that answers a value or a fault. -/
abbrev Operation (σ α : Type) := ExceptT Fault (StateM σ) α

namespace Operation

variable {σ α β ε : Type}

/-- The answer and the state left behind. -/
def run (x : Operation σ α) (s : σ) : Except Fault α × σ :=
  StateT.run (ExceptT.run x) s

/-- Stops with a fault. -/
def stop (fault : Fault) : Operation σ α :=
  throw fault

/-- Stops with a fault unless a condition holds. -/
def require (p : Prop) [Decidable p] (fault : Fault) : Operation σ Unit :=
  if p then pure () else stop fault

/-- The value of a computation outside the state, its fault wrapped. -/
def lift (wrap : ε → Fault) : Except ε α → Operation σ α
  | .ok a => pure a
  | .error e => stop (wrap e)

/-- What the state holds. -/
def read (look : σ → Except StoreFault α) : Operation σ α := do
  lift .store (look (← get))

/-- Changes the state. -/
def update (change : σ → σ) : Operation σ Unit :=
  modify change

/-- Takes something out of the state. -/
def take (takeOut : σ → Except StoreFault (α × σ)) : Operation σ α := do
  let (a, s) ← read takeOut
  set s
  return a

/-- The same answer, but a state that a fault leaves as it was. -/
def atomic (x : Operation σ α) : Operation σ α :=
  ExceptT.mk fun s =>
    match x.run s with
    | (.ok a, s') => (.ok a, s')
    | (.error e, _) => (.error e, s)

@[simp] theorem run_pure (a : α) (s : σ) : run (pure a) s = (.ok a, s) := rfl

@[simp] theorem run_stop (fault : Fault) (s : σ) :
    run (stop fault : Operation σ α) s = (.error fault, s) := rfl

theorem run_bind (x : Operation σ α) (f : α → Operation σ β) (s : σ) :
    run (x >>= f) s =
      match run x s with
      | (.ok a, s') => run (f a) s'
      | (.error e, s') => (.error e, s') := by
  show run (ExceptT.bind x f) s = _
  simp only [run, ExceptT.bind, ExceptT.run, ExceptT.mk, StateT.run, bind, StateT.bind]
  rcases x s with ⟨_ | _, _⟩ <;> rfl

@[simp] theorem run_update (change : σ → σ) (s : σ) : run (update change) s = (.ok (), change s) :=
  rfl

@[simp] theorem run_lift_ok (wrap : ε → Fault) (a : α) (s : σ) :
    run (lift wrap (.ok a)) s = (.ok a, s) := rfl

@[simp] theorem run_lift_error (wrap : ε → Fault) (e : ε) (s : σ) :
    run (lift wrap (.error e) : Operation σ α) s = (.error (wrap e), s) := rfl

theorem run_require (p : Prop) [Decidable p] (fault : Fault) (s : σ) :
    run (require p fault) s = (if p then .ok () else .error fault, s) := by
  unfold require
  split <;> rfl

theorem run_read (look : σ → Except StoreFault α) (s : σ) :
    run (read look) s = ((look s).mapError .store, s) := by
  rw [read, run_bind]
  show run (lift .store (look s)) s = _
  cases look s <;> rfl

theorem run_atomic (x : Operation σ α) (s : σ) :
    run (atomic x) s =
      match run x s with
      | (.ok a, s') => (.ok a, s')
      | (.error e, _) => (.error e, s) := rfl

end Operation

end BridgePool
