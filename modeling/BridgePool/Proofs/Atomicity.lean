import BridgePool.Proofs.Refusal

/-!
# Faults leave no trace

The operations of the pool and of the batches leave the store as it was wherever they stop, without
anyone who takes their writes back. Building a batch does so on every store, damaged or not: all
that it needs is read before the first write. The others write between their checks; on a reachable
store with an id left none of the checks that come after a write can fail (`Store.leavesNoTrace`).
-/

namespace BridgePool

open Operation

/-- Building a batch leaves the store as it was wherever it stops. -/
def Store.BuildsOrStays (s : Store) : Prop :=
  ∀ block contract count timeout, NoTrace id (Batch.build block contract count timeout) s

/-- Every operation of the pool and of the batches leaves the store as it was wherever it stops,
whatever the escrow of the call is. -/
structure Store.LeavesNoTrace (s : Store) : Prop where
  add : ∀ escrow sender destination amount fee,
    NoTrace Vault.store (Pool.add sender destination amount fee) ⟨s, escrow⟩
  cancel_send : ∀ escrow id sender, NoTrace Vault.store (Pool.cancel id sender) ⟨s, escrow⟩
  build : s.BuildsOrStays
  cancel_batch : ∀ nonce, NoTrace id (Batch.cancel nonce) s
  execute : ∀ escrow nonce, NoTrace Vault.store (Batch.execute nonce) ⟨s, escrow⟩
  prune : ∀ height, NoTrace id (Batch.prune height) s

variable {s : Store} {b : Book} {v : Vault} {nonce : UInt64}

/-! ## On every store -/

theorem Ledger.noTrace_credit (coin : Coin) : NoTrace id (credit coin) s := by
  refine .look (still_read _) fun locked _ => ?_
  split
  next sum _ => exact (completes_update _).noTrace
  next => exact (still_stop _).noTrace

theorem Vault.noTrace_lock (sender : String) (coin : Coin) : NoTrace store (lock sender coin) v := by
  refine .look still_get fun w _ => .look (still_require _ _) fun _ _ => ?_
  split
  next left _ =>
    -- the attached coins are taken first, but they are no part of the store
    refine (completes_update _).noTrace.bind fun _ t taken => ?_
    obtain rfl := run_update_eq_ok.mp taken
    exact ⟨rfl, noTrace_onStore (Ledger.noTrace_credit coin)⟩
  next => exact (still_stop _).noTrace

namespace Batch

theorem completes_assign (t : Transfer) : Completes (assign nonce t) s :=
  (completes_update _).bind fun _ _ _ => completes_update _

/-- Nothing is written before a nonce is taken, and nothing stops after that. -/
theorem noTrace_build (block : UInt64) (contract : Address) (count : Nat) (timeout : UInt64) :
    NoTrace id (build block contract count timeout) s := by
  refine .look (still_read _) fun pending _ => ?_
  cases pending with
  | some nonce => exact (still_stop _).noTrace
  | none =>
      refine .look (still_read _) fun selected _ => ?_
      cases selected with
      | nil => exact (still_stop _).noTrace
      | cons lead rest =>
          refine (noTrace_take _).bind_completes fun nonce t _ => ?_
          refine (completes_forM (fun t _ => completes_assign t) _).bind fun _ _ _ => ?_
          exact (completes_update _).bind fun _ _ _ =>
            (completes_update _).bind fun _ _ _ => completes_pure _

theorem still_loadOpen (nonce : UInt64) : Still (loadOpen nonce) := by
  refine (still_read _).bind fun found => ?_
  cases found with
  | none => exact still_stop _
  | some batch => exact (still_require _ _).bind fun _ => still_pure _

end Batch

/-! ## On stores that keep a sound book -/

section Sound

variable (sound : b.Sound)

/-- The lock leaves the counter alone, so an id can be taken after it. -/
theorem Pool.noTrace_add (h : v.store.Keeps b) (room : b.next.toNat + 1 < UInt64.size)
    (sender : String) (destination : Address) (amount fee : Token) :
    NoTrace Vault.store (add sender destination amount fee) v := by
  refine .look (still_require _ _) fun _ _ => .look (still_lift _ _) fun total _ =>
    .look (still_lift _ _) fun coin _ => ?_
  refine (Vault.noTrace_lock sender coin).bind_completes fun _ w locked => ?_
  obtain ⟨_, _, _, _, sum, _, keeps⟩ := (Vault.run_lock_eq_ok h).mp locked
  have taken := (Store.takeId_eq_ok keeps).mpr ⟨rfl, room, rfl⟩
  refine Vault.completes_onStore (.bind (.of_ok (run_take_eq_ok.mpr taken)) fun id t _ => ?_)
  exact (completes_update _).bind fun _ _ _ =>
    (completes_update _).bind fun _ _ _ => completes_pure _

include sound

/-- What waits can be paid back, and whatever does not wait is refused before the first write. -/
theorem Pool.noTrace_cancel (h : v.store.Keeps b) (id : UInt64) (sender : String) :
    NoTrace Vault.store (cancel id sender) v := by
  by_cases found : v.store.HasWaiting id sender
  · obtain ⟨t, looked, own, waits⟩ := found
    rw [h.transfer?, Except.ok.injEq] at looked
    obtain ⟨s', keeps⟩ := exists_keeps_refund h sound looked
    let after : Escrow :=
      { v.escrow with messages := v.escrow.messages ++ [.send t.sender [t.coin]] }
    have done : run (cancel id sender) v = (.ok t, ⟨s', after⟩) :=
      (run_cancel_eq_ok h sound).mpr ⟨looked, own, waits, keeps, rfl⟩
    exact (Completes.of_ok done).noTrace
  · refine .look (Vault.still_onStore (still_read _)) fun kept looked => ?_
    obtain ⟨looked, _⟩ := run_read_eq_ok.mp (Vault.run_onStore_eq_ok.mp looked).1
    cases kept with
    | none => exact (still_stop _).noTrace
    | some t =>
        refine .look (still_require _ _) fun _ passed => ?_
        have own := (run_require_eq_ok.mp passed).1
        split
        next => exact (still_stop _).noTrace
        next waits => exact absurd ⟨t, looked, own, waits⟩ found

namespace Batch

theorem noTrace_cancel (h : s.Keeps b) (nonce : UInt64) : NoTrace id (cancel nonce) s := by
  refine .look (still_loadOpen nonce) fun batch loaded => ?_
  obtain ⟨recorded, opened, _⟩ := (run_loadOpen_eq_ok h).mp loaded
  obtain ⟨s', done, _⟩ := run_returnToPool .cancelled h sound recorded opened
  exact (Completes.of_ok done).noTrace

theorem noTrace_execute (h : v.store.Keeps b) (nonce : UInt64) :
    NoTrace Vault.store (execute nonce) v := by
  by_cases found : v.store.HasOpen nonce
  · obtain ⟨batch, recorded, opened⟩ := h.batch_of_hasOpen found
    obtain ⟨ts, kept⟩ := exists_carried sound recorded opened
    obtain ⟨v', done, _⟩ := run_execute h sound recorded opened kept
    exact (Completes.of_ok done).noTrace
  · refine .look (Vault.still_onStore (still_loadOpen nonce)) fun batch loaded => ?_
    have loaded := (Vault.run_onStore_eq_ok.mp loaded).1
    obtain ⟨recorded, opened, _⟩ := (run_loadOpen_eq_ok h).mp loaded
    exact absurd ⟨batch, (h.batch? nonce).trans (congrArg _ recorded), opened⟩ found

theorem noTrace_prune (h : s.Keeps b) (height : UInt64) : NoTrace id (prune height) s := by
  obtain ⟨_, s', _, _, done, _⟩ := run_prune h sound height
  exact (Completes.of_ok done).noTrace

end Batch

end Sound

/-- Building leaves no trace on any store, and no operation does on a reachable one with an id
left. -/
theorem Store.leavesNoTrace (s : Store) : s.BuildsOrStays ∧ (Reachable s →
    (∃ next, s.nextId = .ok next ∧ next.toNat + 1 < UInt64.size) → s.LeavesNoTrace) := by
  have builds : s.BuildsOrStays := Batch.noTrace_build
  refine ⟨builds, fun h ⟨next, counted, room⟩ => ?_⟩
  rw [h.keeps.nextId, Except.ok.injEq] at counted
  subst counted
  have keeps (escrow : Escrow) : (⟨s, escrow⟩ : Vault).store.Keeps s.book := h.keeps
  constructor
  case add => exact fun escrow => Pool.noTrace_add (keeps escrow) room
  case cancel_send => exact fun escrow => Pool.noTrace_cancel h.sound (keeps escrow)
  case build => exact builds
  case cancel_batch => exact Batch.noTrace_cancel h.sound h.keeps
  case execute => exact fun escrow => Batch.noTrace_execute h.sound (keeps escrow)
  case prune => exact Batch.noTrace_prune h.sound h.keeps

/-- A send that has gone into the first batch is not paid back, and the store stays as it was. -/
theorem Chain.leavesNoTrace_after_firstRequest : ∃ s : Store, Reachable s ∧ s.LeavesNoTrace ∧
    ∀ escrow, ∃ left, left.store = s ∧
      (Pool.cancel 1 "sender").run ⟨s, escrow⟩ = (.error (.alreadyBatched 1 1), left) := by
  obtain ⟨c, s, reached, keeps⟩ := run_firstRequest
  have room : ∃ next, s.nextId = .ok next ∧ next.toNat + 1 < UInt64.size :=
    ⟨2, keeps.nextId, by decide⟩
  have noTrace := (Store.leavesNoTrace s).2 reached room
  refine ⟨s, reached, noTrace, fun escrow => ?_⟩
  have carried : s.LacksWaiting 1 "sender" (.alreadyBatched 1 1) :=
    .carried (keeps.transfer? 1) rfl rfl
  have stopped : (Pool.cancel 1 "sender").run ⟨s, escrow⟩ = (.error (.alreadyBatched 1 1), _) :=
    Prod.ext (Pool.run_cancel_of_lacks carried) rfl
  exact ⟨_, noTrace.cancel_send escrow 1 "sender" _ _ stopped, stopped⟩

end BridgePool
