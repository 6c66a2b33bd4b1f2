import BridgePool.Proofs.Accounting

/-!
# What failed calls of the escrow leave

A call of the escrow fails for one of four reasons, and each of them settles what the call leaves
(`Vault.Fails`, `Vault.run_eq_error`). Wherever a call fails, the store and the requests to the bank
are as they were. So are the attached coins, but for one reason: a lock takes its coin from them
before it credits the ledger, and does not put it back when the ledger has no room for it.

A coin that was taken in this way is forfeited (`Vault.forfeits`). It is in no ledger, and what is
left over of the attached coins does not show that it is missing: the attached coins come to what
was locked, what was forfeited and what is left (`Vault.attached_play`), so that they pass for
consumed when nothing but locks and forfeits took from them (`Vault.failuresExact`).
-/

namespace BridgePool

open Operation

variable {v w : Vault} {ledger : String → CoinAmount} {coin : Coin} {denom : String}

/-! ## Attached coins that are taken -/

namespace Escrow

/-- What is attached passes for consumed when it comes to nothing in every denom. -/
theorem checkConsumed_eq_ok {e : Escrow} :
    e.checkConsumed = .ok () ↔ ∀ denom, Coin.total denom e.available = 0 := by
  rw [← Coin.empty_iff, checkConsumed]
  have nothing : e.leftover = [] ↔ ∀ coin ∈ e.available, coin.amount = .zero := by
    simp [leftover]
  split
  next empty => exact iff_of_true rfl (nothing.mp empty)
  next some_left => exact iff_of_false (by simp) fun empty => some_left (nothing.mpr empty)

/-- What is attached is refused when it comes to something in a denom. -/
theorem checkConsumed_refuses_iff {e : Escrow} :
    (∃ coins, e.checkConsumed = .error (.unexpectedFunds coins)) ↔
      ∃ denom, Coin.total denom e.available ≠ 0 := by
  rw [← not_forall, ← checkConsumed_eq_ok, checkConsumed]
  split
  next => simp
  next => simp

end Escrow

namespace Vault

/-- The vault with other attached coins. -/
def withAvailable (v : Vault) (coins : List Coin) : Vault :=
  { v with escrow := { v.escrow with available := coins } }

/-! ## Why calls fail -/

/-- Why a call fails, and the vault that it leaves. -/
inductive Fails (v : Vault) : Call → Fault → Vault → Prop where
  /-- Only the one who attached the coins can lock them. -/
  | stranger {sender : String} {coin : Coin} (other : sender ≠ v.escrow.funder) :
      v.Fails (.lock sender coin) .unauthorized v
  /-- The first attached coin of the denom does not cover the lock. -/
  | uncovered {coin : Coin} {got : CoinAmount}
      (short : Escrow.takeOut coin v.escrow.available = .error got) :
      v.Fails (.lock v.escrow.funder coin) (.insufficientFunds coin.denom coin.amount got) v
  /-- The ledger has no room for the coin, which is no longer among the attached ones. -/
  | overflow {coin : Coin} {left : List Coin} {held : CoinAmount}
      (taken : Escrow.takeOut coin v.escrow.available = .ok left)
      (read : v.store.locked coin.denom = .ok held)
      (large : Nat.pow 2 128 ≤ held.val + coin.amount.val) :
      v.Fails (.lock v.escrow.funder coin) (.store (.overflow held.val coin.amount.val))
        (v.withAvailable left)
  /-- The ledger does not cover the payment. -/
  | underfunded {call : Call} {coin : Coin} {held : CoinAmount} (pays : call.pays = [coin])
      (read : v.store.locked coin.denom = .ok held) (short : held.val < coin.amount.val) :
      v.Fails call (.underfunded coin.denom held coin.amount) v

theorem run_lock_eq_error (h : v.store.Holds ledger) {sender : String} {fault : Fault} :
    run (lock sender coin) v = (.error fault, w) ↔ v.Fails (.lock sender coin) fault w := by
  rw [run_lock h]
  constructor
  · intro failed
    split at failed
    next own =>
      subst own
      split at failed
      next left taken =>
        split at failed
        next => cases failed
        next full =>
          cases failed
          exact .overflow taken (h coin.denom) (Amount.ofNat?_eq_none.mp full)
      next got short =>
        cases failed
        exact .uncovered short
    next other =>
      cases failed
      exact .stranger other
  · intro failed
    cases failed with
    | stranger other => rw [if_neg other]
    | uncovered short => rw [if_pos rfl, short]
    | overflow taken read large =>
        obtain rfl := Except.ok.inj ((h coin.denom).symm.trans read)
        have full : (ledger coin.denom).add? coin.amount = none := Amount.ofNat?_eq_none.mpr large
        rw [if_pos rfl, taken]
        simp only [full, withAvailable]
    | underfunded pays => cases pays

theorem run_pays_eq_error (h : v.store.Holds ledger) {call : Call} (pays : call.pays = [coin])
    {fault : Fault} : run call.operation v = (.error fault, w) ↔ v.Fails call fault w := by
  obtain ⟨message, operation, _⟩ := Call.exists_request pays
  rw [operation, run_pay h]
  constructor
  · intro failed
    split at failed
    next => cases failed
    next short =>
      cases failed
      exact .underfunded pays (h coin.denom) (Amount.sub?_eq_none.mp short)
  · intro failed
    cases failed with
    | stranger => cases pays
    | uncovered => cases pays
    | overflow => cases pays
    | underfunded pays' read short =>
        obtain rfl := List.singleton_inj.mp (pays'.symm.trans pays)
        obtain rfl := Except.ok.inj ((h _).symm.trans read)
        rw [Amount.sub?_eq_none.mpr short]

/-- A call fails for the reasons given, and for no other. -/
theorem run_eq_error (h : v.store.Holds ledger) {call : Call} {fault : Fault} :
    run call.operation v = (.error fault, w) ↔ v.Fails call fault w := by
  cases call with
  | lock sender coin => exact run_lock_eq_error h
  | release receiver coin => exact run_pays_eq_error h rfl
  | burn coin => exact run_pays_eq_error h rfl

/-! ## What failed calls leave -/

namespace Fails

variable {call : Call} {fault : Fault}

theorem store_eq (failed : v.Fails call fault w) : w.store = v.store := by
  cases failed <;> rfl

theorem messages_eq (failed : v.Fails call fault w) : w.escrow.messages = v.escrow.messages := by
  cases failed <;> rfl

/-- A coin that the ledger has no room for is not empty, so that its attached coin has changed. -/
theorem eq_iff (failed : v.Fails call fault w) :
    w = v ↔ ∀ held added, fault ≠ .store (.overflow held added) := by
  cases failed with
  | stranger => simp
  | uncovered => simp
  | underfunded => simp
  | @overflow coin left held taken read large =>
      have fewer : Coin.first coin.denom v.escrow.available =
          Coin.total coin.denom [coin] + Coin.first coin.denom left := Coin.first_takeOut taken
      have room := held.isLt
      rw [Coin.total_singleton, if_pos rfl] at fewer
      refine iff_of_false (fun same => ?_) (fun other => other _ _ rfl)
      have unchanged : left = v.escrow.available := congrArg (·.escrow.available) same
      rw [unchanged] at fewer
      omega

end Fails

/-! ## Forfeited coins -/

/-- The coin that a call loses when it fails: a lock its own, when the ledger has no room for it. -/
def Call.forfeit (call : Call) : Fault → List Coin
  | .store (.overflow _ _) => call.locks
  | _ => []

/-- The coins that the failed ones of some calls lose, played in turn. -/
def forfeits (v : Vault) : List Call → List Coin
  | [] => []
  | call :: calls =>
    match run call.operation v with
    | (.ok _, w) => w.forfeits calls
    | (.error fault, w) => call.forfeit fault ++ w.forfeits calls

/-- What a failed call takes from the attached coins is what it forfeits. -/
theorem Fails.attached {call : Call} {fault : Fault} (failed : v.Fails call fault w)
    (denom : String) : Coin.total denom v.escrow.available =
      Coin.total denom (call.forfeit fault) + Coin.total denom w.escrow.available := by
  cases failed with
  | stranger => exact (Nat.zero_add _).symm
  | uncovered => exact (Nat.zero_add _).symm
  | overflow taken => exact Coin.total_takeOut taken
  | underfunded => exact (Nat.zero_add _).symm

/-- What a successful call takes from the attached coins is what it locks. -/
theorem attached_of_ok (h : v.store.Holds ledger) {call : Call} {u : Unit}
    (done : run call.operation v = (.ok u, w)) (denom : String) :
    Coin.total denom v.escrow.available =
      Coin.total denom call.locks + Coin.total denom w.escrow.available := by
  have pay {coin : Coin} (pays : call.pays = [coin]) : Coin.total denom v.escrow.available =
      Coin.total denom call.locks + Coin.total denom w.escrow.available := by
    obtain ⟨message, operation, locks, _⟩ := Call.exists_request pays
    rw [operation, run_pay h] at done
    split at done
    next left _ =>
      obtain ⟨-, rfl⟩ := Prod.mk.inj done
      rw [locks, Escrow.queue_eq]
      exact (Nat.zero_add _).symm
    next => cases done
  cases call with
  | lock sender coin =>
      rw [Call.operation, run_lock h] at done
      split at done
      next own =>
        split at done
        next left taken =>
          split at done
          next sum _ =>
            obtain ⟨-, rfl⟩ := Prod.mk.inj done
            exact Coin.total_takeOut taken
          next => cases done
        next => cases done
      next => cases done
  | release receiver coin => exact pay rfl
  | burn coin => exact pay rfl

/-- The ledger can still be read after any calls. -/
theorem exists_holds_play (h : v.store.Holds ledger) (calls : List Call) :
    ∃ ledger, (v.play calls).2.store.Holds ledger := by
  induction calls generalizing v ledger with
  | nil => exact ⟨ledger, h⟩
  | cons call calls ih =>
      have accounts := accounts_call h call
      rw [AccountsCall] at accounts
      rw [play]
      split at accounts
      next =>
        obtain ⟨_, reads⟩ := accounts.exists_holds
        exact ih reads
      next =>
        obtain ⟨_, reads⟩ := accounts.exists_holds
        exact ih reads

/-- What any calls take from the attached coins was locked or forfeited. -/
theorem attached_play (h : v.store.Holds ledger) (calls : List Call) (denom : String) :
    Coin.total denom v.escrow.available =
      Coin.total denom ((v.play calls).1.flatMap Call.locks) +
        Coin.total denom (v.forfeits calls) +
          Coin.total denom (v.play calls).2.escrow.available := by
  induction calls generalizing v ledger with
  | nil => simp [play, forfeits, Coin.total_nil]
  | cons call calls ih =>
      have accounts := accounts_call h call
      rw [AccountsCall] at accounts
      rw [play, forfeits]
      generalize ran : run call.operation v = outcome at accounts ⊢
      obtain ⟨result, w⟩ := outcome
      cases result with
      | ok u =>
          obtain ⟨_, reads⟩ := accounts.exists_holds
          have rest := ih reads
          have first := attached_of_ok h ran denom
          simp only [List.flatMap_cons, Coin.total_append]
          omega
      | error fault =>
          obtain ⟨_, reads⟩ := accounts.exists_holds
          have rest := ih reads
          have first := ((run_eq_error h).mp ran).attached denom
          simp only [Coin.total_append]
          omega

/-! ## Failures after any calls -/

/-- How the calls of a vault fail, and what they leave then. -/
structure FailsExactly (u : Vault) : Prop where
  /-- A call fails for one of four reasons, which says what it leaves. -/
  fails_iff : ∀ (call : Call) fault w,
    run call.operation u = (.error fault, w) ↔ u.Fails call fault w
  /-- The ledger, and all else in the store, is as it was. -/
  store : ∀ (call : Call) fault w, run call.operation u = (.error fault, w) → w.store = u.store
  /-- So are the requests to the bank. -/
  messages : ∀ (call : Call) fault w, run call.operation u = (.error fault, w) →
    w.escrow.messages = u.escrow.messages
  /-- So is everything, unless the ledger had no room for a coin. -/
  unchanged_iff : ∀ (call : Call) fault w, run call.operation u = (.error fault, w) →
    (w = u ↔ ∀ held added, fault ≠ .store (.overflow held added))

theorem failsExactly (h : v.store.Holds ledger) : v.FailsExactly where
  fails_iff _ _ _ := run_eq_error h
  store _ _ _ failed := ((run_eq_error h).mp failed).store_eq
  messages _ _ _ failed := ((run_eq_error h).mp failed).messages_eq
  unchanged_iff _ _ _ failed := ((run_eq_error h).mp failed).eq_iff

/-- How calls fail on what some calls have left, and when the attached coins pass for consumed. -/
structure FailuresExact (v : Vault) (calls : List Call) : Prop where
  failed : (v.play calls).2.FailsExactly
  /-- Attached coins that were neither locked nor forfeited are refused, and no others. -/
  refused_iff : (∃ coins, (v.play calls).2.escrow.checkConsumed = .error (.unexpectedFunds coins)) ↔
    ∃ denom, Coin.total denom ((v.play calls).1.flatMap Call.locks) +
      Coin.total denom (v.forfeits calls) ≠ Coin.total denom v.escrow.available

/-- A failed call of the escrow leaves everything as it was, unless the ledger has no room for the
coin of a lock, which is forfeited. -/
theorem failuresExact (h : v.store.Holds ledger) (calls : List Call) : v.FailuresExact calls := by
  obtain ⟨_, reads⟩ := exists_holds_play h calls
  refine ⟨failsExactly reads, ?_⟩
  rw [Escrow.checkConsumed_refuses_iff]
  refine exists_congr fun denom => ?_
  have attached := attached_play h calls denom
  omega

/-! ## A coin that is lost -/

/-- A piece of gold. -/
def piece : Coin :=
  ⟨"gold", ⟨1, by decide⟩⟩

/-- A call that attached a piece of gold, where the ledger has no room for any more. -/
def brimful : Vault :=
  ⟨Store.empty.save (.locked "gold") (⟨Nat.pow 2 128 - 1, by decide⟩ : CoinAmount),
    .funded "sender" [piece]⟩

theorem exists_holds_brimful : ∃ ledger, brimful.store.Holds ledger ∧
    (ledger "gold").val = Nat.pow 2 128 - 1 := by
  have nothing : Store.empty.Holds fun _ => Amount.zero := Book.keeps_empty.holds
  exact ⟨_, nothing.save "gold" _, by rw [Function.update_self]⟩

/-- The piece is taken, and not credited. -/
theorem run_lock_brimful : run (lock "sender" piece) brimful =
    (.error (.store (.overflow (Nat.pow 2 128 - 1) 1)),
      brimful.withAvailable [⟨"gold", Amount.zero⟩]) := by
  obtain ⟨ledger, reads, full⟩ := exists_holds_brimful
  have taken : Escrow.takeOut piece brimful.escrow.available = .ok [⟨"gold", Amount.zero⟩] := rfl
  have large : Nat.pow 2 128 ≤ (ledger "gold").val + piece.amount.val := by
    rw [full]
    decide
  have failed := (run_lock_eq_error reads).mpr (.overflow taken (reads "gold") large)
  rwa [full] at failed

/-- The lost piece counts as forfeited, so that the attached coins pass for consumed. -/
theorem failuresExact_brimful : ∃ ledger, brimful.store.Holds ledger ∧
    brimful.FailuresExact [.lock "sender" piece] ∧
      brimful.forfeits [.lock "sender" piece] = [piece] ∧
        ¬ ∃ coins, (brimful.play [.lock "sender" piece]).2.escrow.checkConsumed =
          .error (.unexpectedFunds coins) := by
  obtain ⟨ledger, reads, _⟩ := exists_holds_brimful
  have exactly := failuresExact reads [.lock "sender" piece]
  have lost : brimful.forfeits [.lock "sender" piece] = [piece] := by
    rw [forfeits, Call.operation, run_lock_brimful]
    rfl
  have none_done : (brimful.play [.lock "sender" piece]).1 = [] := by
    rw [play, Call.operation, run_lock_brimful]
    rfl
  refine ⟨ledger, reads, exactly, lost, ?_⟩
  rw [exactly.refused_iff, lost, none_done]
  rintro ⟨denom, missing⟩
  exact missing (Nat.zero_add _)

/-- A failed lock changes the attached coins, and what it took is not refused any more though no
lock has put it into the ledger. -/
theorem exists_coin_forfeited : ∃ v w : Vault, (∃ ledger, v.store.Holds ledger) ∧
    run (lock "sender" piece) v = (.error (.store (.overflow (Nat.pow 2 128 - 1) 1)), w) ∧
      w.escrow.available ≠ v.escrow.available ∧
        v.escrow.checkConsumed = .error (.unexpectedFunds [piece]) ∧
          w.escrow.checkConsumed = .ok () := by
  obtain ⟨ledger, reads, _⟩ := exists_holds_brimful
  exact ⟨brimful, _, ⟨ledger, reads⟩, run_lock_brimful, by decide, rfl, rfl⟩

end Vault

end BridgePool
