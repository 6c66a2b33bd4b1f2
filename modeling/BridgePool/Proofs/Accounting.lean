import BridgePool.Proofs.Bridge.Setup
import BridgePool.Proofs.Coin
import BridgePool.Proofs.Escrow

/-!
# The escrow accounts for its coins

Calls of one escrow are played in turn (`Vault.play`), each from what the one before it left, also
where that one failed. `Vault.Accounts` ties what they leave to the calls that succeeded: in every
denom the ledger has what it held before, with what was locked and without what was paid; what was
locked came out of the first attached coin of the denom; and the bank was asked, in order, for every
payment of a coin that is not empty.

A single call accounts for itself (`Vault.accounts_call`), and accounts add up (`Accounts.append`),
so that any sequence of calls is accounted for (`Vault.accounts_play`), on every store whose ledger
can be read. A payment fails exactly when the ledger does not cover it, and then leaves everything
as it was (`Vault.PaysCovered`).
-/

namespace BridgePool

open Operation

variable {v u w : Vault} {ledger : String → CoinAmount} {coin : Coin} {denom : String}

/-! ## Calls -/

namespace Vault

/-- A call of the escrow. -/
inductive Call where
  | lock (sender : String) (coin : Coin)
  | release (receiver : String) (coin : Coin)
  | burn (coin : Coin)

namespace Call

def operation : Call → Operation Vault Unit
  | lock sender coin => Vault.lock sender coin
  | release receiver coin => Vault.release receiver coin
  | burn coin => Vault.burn coin

/-- The coin that the call puts into the ledger. -/
def locks : Call → List Coin
  | lock _ coin => [coin]
  | release _ _ => []
  | burn _ => []

/-- The coin that the call takes out of the ledger. -/
def pays : Call → List Coin
  | lock _ _ => []
  | release _ coin => [coin]
  | burn coin => [coin]

/-- What the call asks of the bank: nothing for an empty coin. -/
def requests : Call → List BankMessage
  | lock _ _ => []
  | release receiver coin =>
    if coin.amount = Amount.zero then [] else [.send receiver [coin]]
  | burn coin => if coin.amount = Amount.zero then [] else [.burn [coin]]

end Call

/-- Plays calls in turn, each from what the one before it left. Answers the calls that succeeded
and the vault that is left. -/
def play (v : Vault) : List Call → List Call × Vault
  | [] => ([], v)
  | call :: calls =>
    match run call.operation v with
    | (.ok _, w) => (call :: (w.play calls).1, (w.play calls).2)
    | (.error _, w) => w.play calls

/-- What is left of a vault, `w`, is accounted for by the calls that succeeded. -/
structure Accounts (v : Vault) (done : List Call) (w : Vault) : Prop where
  ledger : ∀ denom, ∃ before after : CoinAmount, v.store.locked denom = .ok before ∧
    w.store.locked denom = .ok after ∧
    after.val + Coin.total denom (done.flatMap Call.pays) =
      before.val + Coin.total denom (done.flatMap Call.locks)
  attached : ∀ denom, Coin.total denom (done.flatMap Call.locks) +
    Coin.first denom w.escrow.available ≤ Coin.first denom v.escrow.available
  messages : w.escrow.messages = v.escrow.messages ++ done.flatMap Call.requests

/-- A release or a burn succeeds when the ledger covers it, and else answers so and leaves the
vault as it was. -/
def PaysCovered (v : Vault) : Prop :=
  ∀ (call : Call) (coin : Coin), call.pays = [coin] →
    ∃ held, v.store.locked coin.denom = .ok held ∧
      if coin.amount.val ≤ held.val then ∃ w, run call.operation v = (.ok (), w)
      else run call.operation v = (.error (.underfunded coin.denom held coin.amount), v)

/-! ## Accounts add up -/

namespace Accounts

/-- The ledger that is left can be read as well. -/
theorem exists_holds {done : List Call} (h : v.Accounts done w) :
    ∃ ledger, w.store.Holds ledger := by
  choose _ after _ read _ using h.ledger
  exact ⟨after, read⟩

/-- Nothing has to be accounted for where the store and the requests are as they were. -/
theorem nil (h : v.store.Holds ledger) (store : w.store = v.store)
    (messages : w.escrow.messages = v.escrow.messages)
    (attached : ∀ denom, Coin.first denom w.escrow.available ≤
      Coin.first denom v.escrow.available) : v.Accounts [] w where
  ledger denom := ⟨ledger denom, ledger denom, h denom, store ▸ h denom, rfl⟩
  attached denom := (Nat.zero_add _).trans_le (attached denom)
  messages := by rw [messages, List.flatMap_nil, List.append_nil]

theorem append {done more : List Call} (front : v.Accounts done u) (back : u.Accounts more w) :
    v.Accounts (done ++ more) w where
  ledger denom := by
    obtain ⟨before, between, read, read', front⟩ := front.ledger denom
    obtain ⟨between', after, read'', read''', back⟩ := back.ledger denom
    obtain rfl := Except.ok.inj (read'.symm.trans read'')
    refine ⟨before, after, read, read''', ?_⟩
    rw [List.flatMap_append, List.flatMap_append, Coin.total_append, Coin.total_append]
    omega
  attached denom := by
    have front := front.attached denom
    have back := back.attached denom
    rw [List.flatMap_append, Coin.total_append]
    omega
  messages := by
    rw [back.messages, front.messages, List.flatMap_append, List.append_assoc]

end Accounts

/-! ## One call -/

/-- What a call leaves is accounted for: by the call if it succeeded, and else by none. -/
def AccountsCall (v : Vault) (call : Call) : Prop :=
  match run call.operation v with
  | (.ok _, w) => v.Accounts [call] w
  | (.error _, w) => v.Accounts [] w

theorem accounts_lock (h : v.store.Holds ledger) {left : List Coin}
    (taken : Escrow.takeOut coin v.escrow.available = .ok left) {sum : CoinAmount}
    (added : sum.val = (ledger coin.denom).val + coin.amount.val) (sender : String) :
    v.Accounts [.lock sender coin]
      ⟨v.store.save (.locked coin.denom) sum, { v.escrow with available := left }⟩ where
  ledger denom := by
    refine ⟨_, _, h denom, h.save coin.denom sum denom, ?_⟩
    show _ + Coin.total denom [] = _ + Coin.total denom [coin]
    rw [Function.update_apply, Coin.total_nil, Coin.total_singleton]
    split
    next same => rw [if_pos same.symm, same, added, Nat.add_zero]
    next other => rw [if_neg (Ne.symm other)]
  attached denom := (Coin.first_takeOut taken).ge
  messages := (List.append_nil _).symm

/-- Releases and burns are the same payment with different requests. -/
theorem Call.exists_request {call : Call} (pays : call.pays = [coin]) : ∃ message,
    call.operation = pay coin message ∧ call.locks = [] ∧
      call.requests = if coin.amount = Amount.zero then [] else [message] := by
  cases call with
  | lock sender coin => cases pays
  | release receiver coin =>
      cases pays
      exact ⟨_, rfl, rfl, rfl⟩
  | burn coin =>
      cases pays
      exact ⟨_, rfl, rfl, rfl⟩

theorem accounts_pay (h : v.store.Holds ledger) {left : CoinAmount}
    (taken : (ledger coin.denom).val = left.val + coin.amount.val) {call : Call}
    (pays : call.pays = [coin]) (locks : call.locks = []) {message : BankMessage}
    (requests : call.requests = if coin.amount = Amount.zero then [] else [message]) :
    v.Accounts [call] ⟨Ledger.spent v.store coin.denom left, v.escrow.queue coin message⟩ where
  ledger denom := by
    refine ⟨_, _, h denom, Ledger.holds_spent h coin.denom left denom, ?_⟩
    rw [List.flatMap_singleton, List.flatMap_singleton, pays, locks, Function.update_apply,
      Coin.total_nil, Coin.total_singleton]
    split
    next same => rw [if_pos same.symm, same, taken, Nat.add_zero]
    next other => rw [if_neg (Ne.symm other)]
  attached denom := by
    rw [List.flatMap_singleton, locks, Coin.total_nil, Nat.zero_add, Escrow.queue_eq]
  messages := by
    rw [List.flatMap_singleton, requests, Escrow.queue_eq]

theorem accounts_call (h : v.store.Holds ledger) (call : Call) : v.AccountsCall call := by
  have stays : v.Accounts [] v := .nil h rfl rfl fun _ => Nat.le_refl _
  have pay {coin : Coin} (pays : call.pays = [coin]) : v.AccountsCall call := by
    obtain ⟨message, operation, locks, requests⟩ := Call.exists_request pays
    rw [AccountsCall, operation, run_pay h]
    cases taken : (ledger coin.denom).sub? coin.amount with
    | none => exact stays
    | some left => exact accounts_pay h (Amount.sub?_eq_some.mp taken) pays locks requests
  cases call with
  | lock sender coin =>
      rw [AccountsCall, Call.operation, run_lock h]
      by_cases own : sender = v.escrow.funder
      · rw [if_pos own]
        cases taken : Escrow.takeOut coin v.escrow.available with
        | error got => exact stays
        | ok left =>
            cases added : (ledger coin.denom).add? coin.amount with
            | none =>
                refine .nil h rfl rfl fun denom => ?_
                rw [Coin.first_takeOut taken]
                exact Nat.le_add_left _ _
            | some sum => exact accounts_lock h taken (Amount.add?_eq_some.mp added) sender
      · rw [if_neg own]
        exact stays
  | release receiver coin => exact pay rfl
  | burn coin => exact pay rfl

theorem paysCovered (h : v.store.Holds ledger) : v.PaysCovered := by
  intro call coin pays
  obtain ⟨message, operation, _⟩ := Call.exists_request pays
  refine ⟨_, h coin.denom, ?_⟩
  rw [operation, run_pay h]
  cases taken : (ledger coin.denom).sub? coin.amount with
  | none =>
      rw [if_neg (Nat.not_le.mpr (Amount.sub?_eq_none.mp taken))]
  | some left =>
      have split := Amount.sub?_eq_some.mp taken
      rw [if_pos (by omega)]
      exact ⟨_, rfl⟩

/-! ## Any calls -/

/-- Calls of one escrow account for what they leave, and any payment after them fails exactly when
it is not covered. -/
theorem accounts_play (h : v.store.Holds ledger) (calls : List Call) :
    v.Accounts (v.play calls).1 (v.play calls).2 ∧ (v.play calls).2.PaysCovered := by
  have accounts : v.Accounts (v.play calls).1 (v.play calls).2 := by
    induction calls generalizing v ledger with
    | nil => exact .nil h rfl rfl fun _ => Nat.le_refl _
    | cons call calls ih =>
        have goesOn {done : List Call} {u : Vault} (first : v.Accounts done u) :
            v.Accounts (done ++ (u.play calls).1) (u.play calls).2 := by
          obtain ⟨_, reads⟩ := first.exists_holds
          exact first.append (ih reads)
        have first := accounts_call h call
        rw [AccountsCall] at first
        rw [play]
        split at first
        next => exact goesOn first
        next => exact goesOn first
  obtain ⟨_, reads⟩ := accounts.exists_holds
  exact ⟨accounts, paysCovered reads⟩

/-- A coin of two. -/
def two : Coin :=
  ⟨"gold", ⟨2, by decide⟩⟩

/-- A coin of three. -/
def three : Coin :=
  ⟨"gold", ⟨3, by decide⟩⟩

/-- A call that attached both, before anything is held. -/
def purse : Vault :=
  ⟨.empty, .funded "sender" [three, two]⟩

/-- Of two coins of a denom only the first is there to be locked, so that the second lock fails, and
what is held after a release does not cover another. -/
theorem accounts_play_purse : ∃ w,
    purse.play [.lock "sender" three, .release "receiver" two, .lock "sender" two,
      .release "receiver" two] = ([.lock "sender" three, .release "receiver" two], w) ∧
    purse.Accounts [.lock "sender" three, .release "receiver" two] w ∧
    w.escrow.messages = [.send "receiver" [two]] ∧
    run (burn two) w = (.error (.underfunded "gold" ⟨1, by decide⟩ two.amount), w) := by
  have nothing : purse.store.Holds fun _ => Amount.zero := Book.keeps_empty.holds
  have succeeded : (purse.play [.lock "sender" three, .release "receiver" two,
      .lock "sender" two, .release "receiver" two]).1 =
      [.lock "sender" three, .release "receiver" two] := rfl
  obtain ⟨accounts, covered⟩ := accounts_play nothing
    [.lock "sender" three, .release "receiver" two, .lock "sender" two, .release "receiver" two]
  rw [succeeded] at accounts
  refine ⟨_, ?_, accounts, accounts.messages, ?_⟩
  · rw [← succeeded]
  · obtain ⟨held, read, answer⟩ := covered (.burn two) two rfl
    obtain ⟨before, after, read', read'', sum⟩ := accounts.ledger "gold"
    obtain rfl := Except.ok.inj ((nothing "gold").symm.trans read')
    obtain rfl := Except.ok.inj (read.symm.trans read'')
    obtain rfl : held = ⟨1, by decide⟩ := Amount.ext (Nat.add_right_cancel sum)
    rw [if_neg (by decide)] at answer
    exact answer

end Vault

end BridgePool
