import BridgePool.Escrow

/-!
# Operations that succeed

When an operation put together from steps succeeds, every step succeeded, each from the state that
the one before it left (`run_bind_eq_ok`). The other lemmas say the same of the single steps, so
that a successful run can be taken apart from the front.

An operation stops with the fault of its first step that does (`run_bind_of_error`), after the
steps before it have succeeded (`run_bind_of_ok`).

A part of the state that an operation leaves as it was wherever it stops shows no trace of the
attempt (`NoTrace`). Steps that only look (`Still`) leave none, and an operation whose writes come
after its last possible fault (`Completes`) leaves none either.
-/

namespace BridgePool

namespace Operation

variable {σ α β ε : Type} {s s' : σ}

theorem run_bind_eq_ok {x : Operation σ α} {f : α → Operation σ β} {b : β} :
    run (x >>= f) s = (.ok b, s') ↔
      ∃ a t, run x s = (.ok a, t) ∧ run (f a) t = (.ok b, s') := by
  rw [run_bind]
  rcases run x s with ⟨_ | a, t⟩
  · simp
  · simp [eq_comm, and_assoc]

theorem run_pure_eq_ok {a b : α} : run (pure a) s = (.ok b, s') ↔ b = a ∧ s' = s := by
  simp [eq_comm]

theorem run_stop_eq_ok {fault : Fault} {a : α} :
    ¬ run (stop fault : Operation σ α) s = (.ok a, s') := by
  simp

theorem run_require_eq_ok {p : Prop} [Decidable p] {fault : Fault} {u : Unit} :
    run (require p fault) s = (.ok u, s') ↔ p ∧ s' = s := by
  rw [run_require]
  split <;> simp_all [eq_comm]

theorem run_lift_eq_ok {wrap : ε → Fault} {x : Except ε α} {a : α} :
    run (lift wrap x) s = (.ok a, s') ↔ x = .ok a ∧ s' = s := by
  cases x <;> simp [eq_comm]

theorem run_read_eq_ok {look : σ → Except StoreFault α} {a : α} :
    run (read look) s = (.ok a, s') ↔ look s = .ok a ∧ s' = s := by
  rw [run_read, Prod.mk.injEq, eq_comm (a := s)]
  cases look s with
  | error fault =>
      show (Except.error _ : Except Fault α) = _ ∧ _ ↔ _
      simp
  | ok found =>
      show (Except.ok found : Except Fault α) = _ ∧ _ ↔ _
      simp

theorem run_update_eq_ok {change : σ → σ} {u : Unit} :
    run (update change) s = (.ok u, s') ↔ s' = change s := by
  simp [eq_comm]

theorem run_take_eq_ok {takeOut : σ → Except StoreFault (α × σ)} {a : α} :
    run (take takeOut) s = (.ok a, s') ↔ takeOut s = .ok (a, s') := by
  rw [take, run_bind, run_read]
  cases look : takeOut s with
  | error fault =>
      show ((Except.error _, s) : Except Fault α × σ) = _ ↔ _
      simp
  | ok found =>
      obtain ⟨b, t⟩ := found
      show ((Except.ok b, t) : Except Fault α × σ) = _ ↔ _
      simp

theorem run_atomic_eq_ok {x : Operation σ α} {a : α} :
    run (atomic x) s = (.ok a, s') ↔ run x s = (.ok a, s') := by
  rw [run_atomic]
  rcases run x s with ⟨_ | _, _⟩ <;> simp

/-! ## Operations that stop -/

theorem run_bind_of_ok {x : Operation σ α} {f : α → Operation σ β} {a : α}
    (done : run x s = (.ok a, s')) : run (x >>= f) s = run (f a) s' := by
  rw [run_bind, done]

theorem run_bind_of_error {x : Operation σ α} {f : α → Operation σ β} {fault : Fault}
    (stopped : (run x s).1 = .error fault) : (run (x >>= f) s).1 = .error fault := by
  rw [run_bind]
  split
  next ran =>
    rw [ran] at stopped
    cases stopped
  next ran =>
    rw [ran] at stopped
    exact congrArg Except.error (Except.error.inj stopped)

theorem run_require_of_not {p : Prop} [Decidable p] (fails : ¬ p) (fault : Fault) :
    (run (require p fault) s).1 = .error fault := by
  rw [run_require, if_neg fails]

theorem run_atomic_fst (x : Operation σ α) : (run (atomic x) s).1 = (run x s).1 := by
  rw [run_atomic]
  rcases run x s with ⟨_ | _, _⟩ <;> rfl

/-! ## Operations that only look -/

/-- The operation leaves every state as it is, whether it stops or not. -/
def Still (x : Operation σ α) : Prop :=
  ∀ s, (run x s).2 = s

theorem still_pure (a : α) : Still (pure a : Operation σ α) := fun _ => rfl

theorem still_stop (fault : Fault) : Still (stop fault : Operation σ α) := fun _ => rfl

theorem still_require (p : Prop) [Decidable p] (fault : Fault) :
    Still (require p fault : Operation σ Unit) := fun s => by
  rw [run_require]

theorem still_lift (wrap : ε → Fault) (x : Except ε α) : Still (lift wrap x : Operation σ α) := by
  cases x with
  | ok a => exact still_pure a
  | error e => exact still_stop (wrap e)

theorem still_read (look : σ → Except StoreFault α) : Still (read look) := fun s => by
  rw [run_read]

theorem Still.eq_of_ok {x : Operation σ α} (still : Still x) {a : α}
    (done : run x s = (.ok a, s')) : s' = s := by
  have same := still s
  rwa [done] at same

theorem Still.bind {x : Operation σ α} {f : α → Operation σ β} (first : Still x)
    (rest : ∀ a, Still (f a)) : Still (x >>= f) := by
  intro s
  have same := first s
  rw [run_bind]
  rcases ran : run x s with ⟨fault | a, t⟩
  · rwa [ran] at same
  · obtain rfl := first.eq_of_ok ran
    exact rest a t

/-! ## Operations that do not stop -/

/-- From this state the operation runs to its end. -/
def Completes (x : Operation σ α) (s : σ) : Prop :=
  ∃ a s', run x s = (.ok a, s')

theorem Completes.of_ok {x : Operation σ α} {a : α} (done : run x s = (.ok a, s')) :
    Completes x s :=
  ⟨a, s', done⟩

theorem completes_pure (a : α) : Completes (pure a : Operation σ α) s :=
  .of_ok rfl

theorem completes_update (change : σ → σ) : Completes (update change) s :=
  .of_ok rfl

theorem Completes.bind {x : Operation σ α} {f : α → Operation σ β} (first : Completes x s)
    (rest : ∀ a t, run x s = (.ok a, t) → Completes (f a) t) : Completes (x >>= f) s := by
  obtain ⟨a, t, done⟩ := first
  obtain ⟨b, s', done'⟩ := rest a t done
  exact .of_ok (run_bind_eq_ok.mpr ⟨a, t, done, done'⟩)

/-- A loop whose step completes from every state completes. -/
theorem completes_forM {f : α → Operation σ PUnit} (each : ∀ a s, Completes (f a) s)
    (as : List α) : Completes (as.forM f) s := by
  induction as generalizing s with
  | nil => exact completes_pure _
  | cons a as ih => exact (each a s).bind fun _ _ _ => ih

/-! ## Operations that leave no trace -/

/-- Where the operation stops, this part of the state is as it was. -/
def NoTrace {τ : Type} (part : σ → τ) (x : Operation σ α) (s : σ) : Prop :=
  ∀ fault s', run x s = (.error fault, s') → part s' = part s

section NoTrace

variable {τ : Type} {part : σ → τ} {x : Operation σ α} {f : α → Operation σ β}

theorem Completes.noTrace (done : Completes x s) : NoTrace part x s := by
  obtain ⟨a, t, done⟩ := done
  intro fault s' stopped
  cases done.symm.trans stopped

theorem Still.noTrace (still : Still x) : NoTrace part x s := by
  intro fault s' stopped
  have same := still s
  rw [stopped] at same
  exact congrArg part same

/-- What comes after a first step leaves no trace if the step keeps the part and the rest leaves
none. -/
theorem NoTrace.bind (first : NoTrace part x s)
    (rest : ∀ a t, run x s = (.ok a, t) → part t = part s ∧ NoTrace part (f a) t) :
    NoTrace part (x >>= f) s := by
  intro fault s' stopped
  rw [run_bind] at stopped
  rcases ran : run x s with ⟨fault' | a, t⟩
  · rw [ran] at stopped
    exact first fault' s' (by rw [ran, (Prod.mk.inj stopped).2])
  · rw [ran] at stopped
    obtain ⟨kept, none⟩ := rest a t ran
    exact (none fault s' stopped).trans kept

/-- A step may write when nothing after it can stop. -/
theorem NoTrace.bind_completes (first : NoTrace part x s)
    (rest : ∀ a t, run x s = (.ok a, t) → Completes (f a) t) : NoTrace part (x >>= f) s := by
  intro fault s' stopped
  rw [run_bind] at stopped
  rcases ran : run x s with ⟨fault' | a, t⟩
  · rw [ran] at stopped
    exact first fault' s' (by rw [ran, (Prod.mk.inj stopped).2])
  · rw [ran] at stopped
    obtain ⟨b, s'', done⟩ := rest a t ran
    cases done.symm.trans stopped

/-- A step that only looks comes before anything. -/
theorem NoTrace.look (still : Still x)
    (rest : ∀ a, run x s = (.ok a, s) → NoTrace part (f a) s) : NoTrace part (x >>= f) s := by
  refine still.noTrace.bind fun a t done => ?_
  obtain rfl := still.eq_of_ok done
  exact ⟨rfl, rest a done⟩

theorem noTrace_take (takeOut : σ → Except StoreFault (α × σ)) : NoTrace part (take takeOut) s :=
  .look (still_read _) fun _ _ => Completes.noTrace (.of_ok rfl)

end NoTrace

end Operation

namespace Vault

open Operation

variable {α : Type} {v v' : Vault}

theorem run_onStore (x : Operation Store α) :
    run (onStore x) v = ((run x v.store).1, { v with store := (run x v.store).2 }) := rfl

theorem run_onStore_eq_ok {x : Operation Store α} {a : α} :
    run (onStore x) v = (.ok a, v') ↔
      run x v.store = (.ok a, v'.store) ∧ v'.escrow = v.escrow := by
  rw [run_onStore]
  rcases run x v.store with ⟨answer, store⟩
  cases v'
  simp [Vault.ext_iff, and_assoc, eq_comm]

theorem noTrace_onStore {x : Operation Store α} (none : NoTrace id x v.store) :
    NoTrace Vault.store (onStore x) v := by
  intro fault v' stopped
  rw [run_onStore] at stopped
  obtain ⟨answer, rfl⟩ := Prod.mk.inj stopped
  exact none fault _ (Prod.ext answer rfl)

theorem still_onStore {x : Operation Store α} (still : Still x) : Still (onStore x) := fun v => by
  rw [run_onStore, still]

theorem completes_onStore {x : Operation Store α} (done : Completes x v.store) :
    Completes (onStore x) v := by
  obtain ⟨a, s, ran⟩ := done
  exact .of_ok (run_onStore_eq_ok.mpr ⟨ran, (rfl : (⟨s, v.escrow⟩ : Vault).escrow = _)⟩)

theorem run_get_eq_ok {w : Vault} : run (get : Operation Vault Vault) v = (.ok w, v') ↔
    w = v ∧ v' = v := by
  show ((Except.ok v, v) : Except Fault Vault × Vault) = _ ↔ _
  simp [eq_comm]

theorem still_get : Still (get : Operation Vault Vault) := fun _ => rfl

theorem run_ensureConsumed_eq_ok {u : Unit} :
    run ensureConsumed v = (.ok u, v') ↔ v.escrow.leftover = [] ∧ v' = v := by
  have all : v.escrow.checkConsumed = .ok u ↔ v.escrow.leftover = [] := by
    rw [Escrow.checkConsumed]
    split <;> simp_all
  rw [ensureConsumed, run_bind_eq_ok]
  simp only [run_get_eq_ok, run_lift_eq_ok]
  constructor
  · rintro ⟨w, t, ⟨rfl, rfl⟩, checked, rfl⟩
    exact ⟨all.mp checked, rfl⟩
  · rintro ⟨empty, rfl⟩
    exact ⟨_, _, ⟨rfl, rfl⟩, all.mpr empty, rfl⟩

theorem run_withEscrow_eq_ok {escrow left : Escrow} {x : Operation Vault α} {s s' : Store}
    {a : α} : run (withEscrow escrow x) s = (.ok (a, left), s') ↔
      run x ⟨s, escrow⟩ = (.ok a, ⟨s', left⟩) := by
  show ((run x ⟨s, escrow⟩).1.map (·, (run x ⟨s, escrow⟩).2.escrow),
    (run x ⟨s, escrow⟩).2.store) = _ ↔ _
  rcases run x ⟨s, escrow⟩ with ⟨_ | b, w⟩
  · simp [Except.map]
  · simp only [Except.map, Vault.ext_iff, Prod.mk.injEq, Except.ok.injEq]
    constructor
    · rintro ⟨⟨rfl, rfl⟩, rfl⟩
      exact ⟨rfl, rfl, rfl⟩
    · rintro ⟨rfl, rfl, rfl⟩
      exact ⟨⟨rfl, rfl⟩, rfl⟩

theorem run_withEscrow_of_error {escrow : Escrow} {x : Operation Vault α} {s : Store}
    {fault : Fault} (stopped : (run x ⟨s, escrow⟩).1 = .error fault) :
    (run (withEscrow escrow x) s).1 = .error fault := by
  show (run x ⟨s, escrow⟩).1.map _ = _
  rw [stopped]
  rfl

theorem run_ensureConsumed_of_ne (left : v.escrow.leftover ≠ []) :
    (run ensureConsumed v).1 = .error (.unexpectedFunds v.escrow.leftover) := by
  show (run (lift id v.escrow.checkConsumed) v).1 = _
  rw [Escrow.checkConsumed, if_neg left]
  rfl

end Vault

end BridgePool
