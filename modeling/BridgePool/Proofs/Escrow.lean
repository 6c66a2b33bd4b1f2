import BridgePool.Proofs.Book.Deed
import BridgePool.Proofs.Operation
import BridgePool.Proofs.Store.Keeps

/-!
# What the escrow does

`Ledger.credit` and `Ledger.debit` succeed when the sum or the difference exists, and write the one
row of the coin's denom. `Vault.lock` takes the coin from the attached coins as well, `Vault.release`
and `Vault.burn` queue a request to the bank. What they answer and leave, stopped or not, is said of
any store whose ledger can be read (`Store.Holds`), whatever else is in it; when they succeed, of a
store that keeps a book.
-/

namespace BridgePool

open Operation

variable {b : Book} {s s' : Store} {v v' : Vault} {coin : Coin} {u : Unit}
  {ledger : String → CoinAmount} {message : BankMessage}

/-! ## Ledgers that can be read -/

/-- The ledger of the store can be read, and says this of every denom. -/
def Store.Holds (s : Store) (ledger : String → CoinAmount) : Prop :=
  ∀ denom, s.locked denom = .ok (ledger denom)

namespace Store

theorem Keeps.holds (h : s.Keeps b) : s.Holds fun denom => (b.locked denom).getD Amount.zero :=
  h.locked

namespace Holds

variable (h : s.Holds ledger) (denom : String)

include h

theorem save (amount : CoinAmount) :
    (s.save (.locked denom) amount).Holds (Function.update ledger denom amount) := by
  intro other
  rw [locked, load?, Store.save, get?_key_insert, Function.update_apply]
  by_cases same : other = denom
  · simp [same, Codec.ofBytes?_bytes, Except.map]
  · rw [if_neg (by simpa using same), if_neg same]
    exact h other

theorem clear : (s.clear (.locked denom)).Holds (Function.update ledger denom Amount.zero) := by
  intro other
  rw [locked, load?, get?_key_clear, Function.update_apply]
  by_cases same : other = denom
  · simp [same, Except.map]
  · rw [if_neg (by simpa using same), if_neg same]
    exact h other

end Holds

end Store

namespace Ledger

/-- What a debit writes: nothing that is empty. -/
def spent (s : Store) (denom : String) (left : CoinAmount) : Store :=
  if left = Amount.zero then s.clear (.locked denom) else s.save (.locked denom) left

theorem holds_spent (h : s.Holds ledger) (denom : String) (left : CoinAmount) :
    (spent s denom left).Holds (Function.update ledger denom left) := by
  rw [spent]
  split
  next nothing => exact nothing ▸ h.clear denom
  next => exact h.save denom left

theorem run_credit (h : s.Holds ledger) : run (credit coin) s =
    match (ledger coin.denom).add? coin.amount with
    | some sum => (.ok (), s.save (.locked coin.denom) sum)
    | none => (.error (.store (.overflow (ledger coin.denom).val coin.amount.val)), s) := by
  have looked : run (.read (·.locked coin.denom)) s = (.ok (ledger coin.denom), s) :=
    run_read_eq_ok.mpr ⟨h coin.denom, rfl⟩
  rw [credit, run_bind_of_ok looked]
  cases (ledger coin.denom).add? coin.amount with
  | some sum => rfl
  | none => rfl

theorem run_debit (h : s.Holds ledger) : run (debit coin) s =
    match (ledger coin.denom).sub? coin.amount with
    | some left => (.ok (), spent s coin.denom left)
    | none => (.error (.underfunded coin.denom (ledger coin.denom) coin.amount), s) := by
  have looked : run (.read (·.locked coin.denom)) s = (.ok (ledger coin.denom), s) :=
    run_read_eq_ok.mpr ⟨h coin.denom, rfl⟩
  rw [debit, run_bind_of_ok looked]
  cases (ledger coin.denom).sub? coin.amount with
  | some left => rfl
  | none => rfl

end Ledger

/-- An empty coin asks for nothing. -/
theorem Escrow.queue_eq (e : Escrow) (coin : Coin) (message : BankMessage) :
    e.queue coin message =
      { e with
        messages := e.messages ++ if coin.amount = Amount.zero then [] else [message] } := by
  rw [queue]
  split
  next => rw [List.append_nil]
  next => rfl

namespace Vault

/-- A lock keeps what it took out of the attached coins even where the credit then stops. -/
theorem run_lock (h : v.store.Holds ledger) {sender : String} : run (lock sender coin) v =
    if sender = v.escrow.funder then
      match Escrow.takeOut coin v.escrow.available with
      | .ok left =>
        match (ledger coin.denom).add? coin.amount with
        | some sum =>
          (.ok (), ⟨v.store.save (.locked coin.denom) sum, { v.escrow with available := left }⟩)
        | none =>
          (.error (.store (.overflow (ledger coin.denom).val coin.amount.val)),
            { v with escrow := { v.escrow with available := left } })
      | .error got => (.error (.insufficientFunds coin.denom coin.amount got), v)
    else (.error .unauthorized, v) := by
  have looked : run get v = (.ok v, v) := run_get_eq_ok.mpr ⟨rfl, rfl⟩
  rw [lock, run_bind_of_ok looked, run_bind, run_require]
  by_cases own : sender = v.escrow.funder
  · rw [if_pos own, if_pos own]
    cases Escrow.takeOut coin v.escrow.available with
    | error got => rfl
    | ok left =>
        show run (.update _ >>= _) v = _
        rw [run_bind_of_ok (run_update _ v), run_onStore, Ledger.run_credit h]
        cases (ledger coin.denom).add? coin.amount with
        | some sum => rfl
        | none => rfl
  · rw [if_neg own, if_neg own]

/-- What releases and burns have in common: a coin is debited, and its request is queued. -/
def pay (coin : Coin) (message : BankMessage) : Operation Vault Unit := do
  onStore (Ledger.debit coin)
  .update fun v => { v with escrow := v.escrow.queue coin message }

/-- A payment that is not covered leaves the vault as it was. -/
theorem run_pay (h : v.store.Holds ledger) : run (pay coin message) v =
    match (ledger coin.denom).sub? coin.amount with
    | some left => (.ok (), ⟨Ledger.spent v.store coin.denom left, v.escrow.queue coin message⟩)
    | none => (.error (.underfunded coin.denom (ledger coin.denom) coin.amount), v) := by
  rw [pay, run_bind, run_onStore, Ledger.run_debit h]
  cases (ledger coin.denom).sub? coin.amount with
  | some left => rfl
  | none => rfl

end Vault

/-! ## Books -/

namespace Ledger

theorem keeps_spent (h : s.Keeps b) {left : CoinAmount}
    (taken : b.locked.held coin.denom = left.val + coin.amount.val) :
    (spent s coin.denom left).Keeps
      { b with locked := b.locked.spend coin.denom coin.amount.val } := by
  have rest : Amount.ofNat? 128 (b.locked.held coin.denom - coin.amount.val) = some left :=
    Amount.ofNat?_eq_some.mpr (by omega)
  rw [spent, Holdings.spend, rest, Option.filter]
  by_cases nothing : left = Amount.zero
  · simpa [nothing] using h.clearLocked coin.denom
  · simpa [nothing] using h.saveLocked coin.denom left

variable (coin) in
/-- Some store keeps what a covered debit leaves. -/
theorem exists_keeps_debit (h : s.Keeps b)
    (covered : coin.amount.val ≤ b.locked.held coin.denom) :
    ∃ s' : Store, s'.Keeps { b with locked := b.locked.spend coin.denom coin.amount.val } := by
  obtain ⟨left, taken⟩ : ∃ left : CoinAmount, b.locked.held coin.denom =
      left.val + coin.amount.val :=
    ⟨⟨b.locked.held coin.denom - coin.amount.val,
      Nat.lt_of_le_of_lt (Nat.sub_le _ _) (b.locked.held_lt _)⟩, (Nat.sub_add_cancel covered).symm⟩
  exact ⟨_, keeps_spent h taken⟩

end Ledger

namespace Vault

theorem run_lock_eq_ok (h : v.store.Keeps b) {sender : String} :
    run (lock sender coin) v = (.ok u, v') ↔
      sender = v.escrow.funder ∧ ∃ left, Escrow.takeOut coin v.escrow.available = .ok left ∧
        v'.escrow = { v.escrow with available := left } ∧
        ∃ sum : CoinAmount, sum.val = b.locked.held coin.denom + coin.amount.val ∧
          v'.store.Keeps
            { b with locked := Function.update b.locked coin.denom (some sum) } := by
  rw [run_lock h.holds]
  constructor
  · intro done
    split at done
    next own =>
      split at done
      next left taken =>
        split at done
        next sum added =>
          obtain ⟨-, rfl⟩ := Prod.mk.inj done
          exact ⟨own, left, taken, rfl, sum, Amount.add?_eq_some.mp added, h.saveLocked _ _⟩
        next => cases done
      next => cases done
    next => cases done
  · rintro ⟨own, left, taken, escrow, sum, added, keeps⟩
    have stored := (h.saveLocked _ _).eq_iff.mpr keeps
    rw [if_pos own, taken, Amount.add?_eq_some.mpr added]
    exact Prod.ext rfl (Vault.ext stored.symm escrow.symm)

theorem run_pay_eq_ok (h : v.store.Keeps b) :
    run (pay coin message) v = (.ok u, v') ↔
      coin.amount.val ≤ b.locked.held coin.denom ∧
        v'.store.Keeps { b with locked := b.locked.spend coin.denom coin.amount.val } ∧
        v'.escrow = v.escrow.queue coin message := by
  rw [run_pay h.holds]
  constructor
  · intro done
    split at done
    next left taken =>
      have split : b.locked.held coin.denom = _ := Amount.sub?_eq_some.mp taken
      obtain ⟨-, rfl⟩ := Prod.mk.inj done
      exact ⟨by omega, Ledger.keeps_spent h split, rfl⟩
    next => cases done
  · rintro ⟨covered, keeps, escrow⟩
    split
    next left taken =>
      have stored := (Ledger.keeps_spent h (Amount.sub?_eq_some.mp taken)).eq_iff.mpr keeps
      exact Prod.ext rfl (Vault.ext stored.symm escrow.symm)
    next short => exact absurd (Amount.sub?_eq_none.mp short) (Nat.not_lt.mpr covered)

theorem run_release_eq_ok (h : v.store.Keeps b) {receiver : String} :
    run (release receiver coin) v = (.ok u, v') ↔
      coin.amount.val ≤ b.locked.held coin.denom ∧
        v'.store.Keeps { b with locked := b.locked.spend coin.denom coin.amount.val } ∧
        v'.escrow = v.escrow.queue coin (.send receiver [coin]) :=
  run_pay_eq_ok h

theorem run_burn_eq_ok (h : v.store.Keeps b) :
    run (burn coin) v = (.ok u, v') ↔
      coin.amount.val ≤ b.locked.held coin.denom ∧
        v'.store.Keeps { b with locked := b.locked.spend coin.denom coin.amount.val } ∧
        v'.escrow = v.escrow.queue coin (.burn [coin]) :=
  run_pay_eq_ok h

end Vault

end BridgePool
