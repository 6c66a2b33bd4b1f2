import BridgePool.Pool
import BridgePool.Proofs.Book.Sound
import BridgePool.Proofs.Escrow
import BridgePool.Proofs.Token

/-!
# What the pool does to a book

`Pool.add` and `Pool.cancel` succeed exactly under the conditions that `Pool.run_add_eq_ok` and
`Pool.run_cancel_eq_ok` name, and change the book by `Book.accept` and `Book.refund`.
-/

namespace BridgePool

open Operation

variable {b : Book} {s s' : Store} {v v' : Vault} {id : UInt64}

namespace Store

theorem takeId_eq_ok (h : s.Keeps b) :
    s.takeId = .ok (id, s') ↔
      id = b.next ∧ id.toNat + 1 < UInt64.size ∧ s' = s.saveWord .nextId (id + 1) := by
  simp only [takeId, h.nextId, Book.next, bind, Except.bind]
  split
  next room =>
    simp only [pure, Except.pure, Except.ok.injEq, Prod.mk.injEq]
    constructor
    · rintro ⟨rfl, rfl⟩
      exact ⟨rfl, room, rfl⟩
    · rintro ⟨rfl, _, rfl⟩
      exact ⟨rfl, rfl⟩
  next full =>
    simp only [reduceCtorEq, false_iff]
    rintro ⟨rfl, room, _⟩
    exact full room

/-- The writes of a send, from a store where the ledger is written already. -/
theorem Keeps.accept {t : Transfer} {sum : CoinAmount}
    (h : s.Keeps { b with locked := Function.update b.locked t.token.denom (some sum) }) :
    (((s.saveWord .nextId (t.id + 1)).saveTransfer t).addFeeRow t).Keeps (b.accept t sum) := by
  have keeps := ((h.saveNextId (t.id + 1)).saveTransfer t).addFeeRow t
  dsimp only at keeps
  exact keeps

end Store

namespace Pool

/-- The transfer that a send makes. -/
def sent (sender : String) (destination : Address) (amount fee : Token) (id : UInt64) :
    Transfer where
  id := id
  sender := sender
  destination := destination
  token := amount
  fee := ⟨fee.amount, amount.contract⟩
  state := .unbatched

variable {sender : String} {destination : Address} {amount fee : Token}

variable (sender destination id) in
theorem total_coin_eq_ok {c : Coin} :
    (∃ total, amount.add fee = .ok total ∧ total.coin = .ok c) ↔
      amount.contract.Same fee.contract ∧
        (sent sender destination amount fee id).worth < Nat.pow 2 128 ∧
        c = (sent sender destination amount fee id).coin := by
  rw [← Transfer.eq_coin_iff]
  simp only [Token.add_eq_ok, Token.coin_eq_ok]
  constructor
  · rintro ⟨total, ⟨same, sum, contract⟩, denom, value⟩
    refine ⟨same, ?_, value.trans sum⟩
    rw [denom, Token.denom, contract]
    rfl
  · rintro ⟨same, denom, value⟩
    have room : amount.amount.val + fee.amount.val < Nat.pow 2 256 :=
      Nat.lt_trans (value ▸ c.amount.isLt) (by decide)
    exact ⟨⟨⟨_, room⟩, amount.contract⟩, ⟨same, rfl, rfl⟩, denom, value⟩

/-- A send is taken in exactly when the amount is not zero, amount and fee are of one contract, a
coin holds their sum, the caller attached it, the ledger has room for it, and an id is left. -/
theorem run_add_eq_ok (h : v.store.Keeps b) :
    run (add sender destination amount fee) v = (.ok id, v') ↔
      ∃ t, t = sent sender destination amount fee id ∧
        t.token.amount.val ≠ 0 ∧ amount.contract.Same fee.contract ∧
        t.worth < Nat.pow 2 128 ∧ t.id = b.next ∧ t.id.toNat + 1 < UInt64.size ∧
        sender = v.escrow.funder ∧
        (∃ left, Escrow.takeOut t.coin v.escrow.available = .ok left ∧
          v'.escrow = { v.escrow with available := left }) ∧
        ∃ sum : CoinAmount, sum.val = b.locked.held t.token.denom + t.worth ∧
          v'.store.Keeps (b.accept t sum) := by
  simp only [add, run_bind_eq_ok, run_require_eq_ok, run_lift_eq_ok, run_take_eq_ok,
    run_update_eq_ok, run_pure_eq_ok, Vault.run_onStore_eq_ok]
  constructor
  · rintro ⟨_, _, ⟨nonzero, rfl⟩, total, _, ⟨added, rfl⟩, coin, _, ⟨coined, rfl⟩, _, w, locked,
      ⟨new, s₁, taken, _, s₂, rfl, _, s₃, rfl, rfl, stored⟩, escrow⟩
    obtain ⟨own, left, takenOut, escrow', sum, credited, keeps⟩ := (Vault.run_lock_eq_ok h).mp locked
    obtain ⟨same, fits, rfl⟩ := (total_coin_eq_ok id sender destination).mp ⟨total, added, coined⟩
    obtain ⟨next, room, rfl⟩ := (Store.takeId_eq_ok keeps).mp taken
    refine ⟨_, rfl, fun zero => nonzero (Amount.ext zero), same, fits, next, room, own,
      ⟨left, takenOut, escrow.trans escrow'⟩, sum, ?_, ?_⟩
    · rw [credited, Transfer.coin_amount fits]
      rfl
    · rw [stored]
      exact Store.Keeps.accept (t := sent sender destination amount fee id) keeps
  · rintro ⟨_, rfl, positive, same, fits, next, room, own, ⟨left, takenOut, escrow⟩, sum, credited,
      keeps⟩
    obtain ⟨total, added, coined⟩ :=
      (total_coin_eq_ok id sender destination).mpr ⟨same, fits, rfl⟩
    rw [← Transfer.coin_amount fits] at credited
    have locked := h.saveLocked (sent sender destination amount fee id).coin.denom sum
    have stored := Store.Keeps.accept (t := sent sender destination amount fee id) locked
    refine ⟨(), v, ⟨fun zero => positive (zero ▸ rfl), rfl⟩, total, v, ⟨added, rfl⟩, _, v,
      ⟨coined, rfl⟩, (), ⟨_, { v.escrow with available := left }⟩,
      (Vault.run_lock_eq_ok h).mpr ⟨own, left, takenOut, rfl, sum, credited, locked⟩,
      ⟨id, _, (Store.takeId_eq_ok locked).mpr ⟨next, room, rfl⟩, (), _, rfl, (), _, rfl, rfl,
        stored.eq_iff.mpr keeps⟩, escrow⟩

/-- A request for the coin of a transfer with an amount is not an empty one. -/
theorem queue_coin {t : Transfer} (positive : t.token.amount.val ≠ 0)
    (fits : t.worth < Nat.pow 2 128) (e : Escrow) (message : BankMessage) :
    e.queue t.coin message = { e with messages := e.messages ++ [message] } := by
  have amount := Transfer.coin_amount fits
  rw [Escrow.queue, if_neg]
  intro empty
  rw [empty, Amount.val_zero, Transfer.worth] at amount
  omega

/-- Some store keeps the book after a refund. -/
theorem exists_keeps_refund (h : s.Keeps b) (sound : b.Sound) {t : Transfer}
    (kept : b.transfer id = some t) : ∃ s' : Store, s'.Keeps (b.refund t) := by
  have fits := sound.fits kept
  have covered := sound.covered kept
  rw [← Transfer.coin_amount fits] at covered
  have rows := (h.removeFeeRow t).removeTransfer t.id
  obtain ⟨s', keeps⟩ := Ledger.exists_keeps_debit t.coin rows covered
  rw [Transfer.coin_amount fits] at keeps
  exact ⟨s', keeps⟩

/-- A transfer is paid back exactly when it waits and its sender asks. -/
theorem run_cancel_eq_ok (h : v.store.Keeps b) (sound : b.Sound) {t : Transfer} :
    run (cancel id sender) v = (.ok t, v') ↔
      b.transfer id = some t ∧ t.sender = sender ∧ t.state = .unbatched ∧
        v'.store.Keeps (b.refund t) ∧
        v'.escrow =
          { v.escrow with messages := v.escrow.messages ++ [.send t.sender [t.coin]] } := by
  simp only [cancel, run_bind_eq_ok, run_read_eq_ok, Vault.run_onStore_eq_ok, h.transfer?,
    Except.ok.injEq]
  constructor
  · rintro ⟨_, w, ⟨⟨rfl, store⟩, escrow⟩, done⟩
    obtain rfl : w = v := Vault.ext store escrow
    split at done
    next => exact absurd done run_stop_eq_ok
    next u kept =>
    simp only [run_bind_eq_ok, run_require_eq_ok] at done
    obtain ⟨_, _, ⟨own, rfl⟩, done⟩ := done
    split at done
    next => exact absurd done run_stop_eq_ok
    next waits =>
    simp only [run_bind_eq_ok, run_lift_eq_ok, run_update_eq_ok, run_pure_eq_ok,
      Vault.run_onStore_eq_ok, heldCoin_eq_ok (sound.spelled kept)] at done
    obtain ⟨_, w₁, ⟨store₁, escrow₁⟩, _, _, ⟨store₂, escrow₂⟩, coin, w₂, ⟨⟨fits, rfl⟩, rfl⟩, _, _,
      released, rfl, rfl⟩ := done
    obtain rfl := sound.transfer_id kept
    have keeps := (h.removeFeeRow t).removeTransfer t.id
    rw [← store₁, ← store₂] at keeps
    obtain ⟨_, keeps, escrow⟩ := (Vault.run_release_eq_ok keeps).mp released
    rw [Transfer.coin_amount fits] at keeps
    rw [escrow₂, escrow₁, queue_coin (sound.positive kept) fits] at escrow
    exact ⟨kept, own, waits, keeps, escrow⟩
  · rintro ⟨kept, own, waits, keeps, escrow⟩
    obtain rfl := sound.transfer_id kept
    have fits := sound.fits kept
    have removed := (h.removeFeeRow t).removeTransfer t.id
    refine ⟨_, v, ⟨⟨rfl, rfl⟩, rfl⟩, ?_⟩
    rw [kept]
    simp only [waits, run_bind_eq_ok, run_require_eq_ok, run_lift_eq_ok, run_update_eq_ok,
      run_pure_eq_ok, Vault.run_onStore_eq_ok, heldCoin_eq_ok (sound.spelled kept)]
    refine ⟨(), v, ⟨own, rfl⟩, (), ⟨_, v.escrow⟩, ⟨rfl, rfl⟩, (), ⟨_, v.escrow⟩, ⟨rfl, rfl⟩, _, _,
      ⟨⟨fits, rfl⟩, rfl⟩, (), v', (Vault.run_release_eq_ok removed).mpr ⟨?_, ?_, ?_⟩, trivial, rfl⟩
    · rw [Transfer.coin_amount fits]
      exact sound.covered kept
    · rw [Transfer.coin_amount fits]
      exact keeps
    · rw [queue_coin (sound.positive kept) fits]
      exact escrow

end Pool

end BridgePool
