import BridgePool.Operation

/-!
# The escrow

The escrow stands between the pool and the bank. `Vault.lock` takes coins that came attached to a
call, `Vault.release` and `Vault.burn` queue what the bank is to pay out or destroy. A ledger in
the store records, per denom, what is held; a denom of which nothing is held any more has no row
once a debit has brought it to zero.

The escrow of a call lives beside the store, in a `Vault`.
-/

namespace BridgePool

/-- What the bank is asked to do. -/
inductive BankMessage where
  | send (receiver : String) (coins : List Coin)
  | burn (coins : List Coin)
  deriving DecidableEq

/-- The escrow of one call: who attached coins, what of them is not yet taken, and the requests
to the bank so far. -/
@[ext] structure Escrow where
  funder : String
  available : List Coin
  messages : List BankMessage
  deriving DecidableEq

namespace Escrow

/-- The escrow of a call with attached coins. -/
def funded (funder : String) (funds : List Coin) : Escrow :=
  ⟨funder, funds, []⟩

/-- The escrow of a call without coins. -/
def unfunded (caller : String) : Escrow :=
  funded caller []

/-- The attached coins that no lock has taken; empty coins do not count. -/
def leftover (e : Escrow) : List Coin :=
  e.available.filter (·.amount ≠ Amount.zero)

/-- Attached coins that no lock has taken are refused rather than kept. -/
def checkConsumed (e : Escrow) : Except Fault Unit :=
  if e.leftover = [] then .ok () else .error (.unexpectedFunds e.leftover)

/-- Takes a coin out of the first attached coin of its denom. Where that does not cover it, the
answer is what there was. -/
def takeOut (coin : Coin) : List Coin → Except CoinAmount (List Coin)
  | [] => .error Amount.zero
  | c :: rest =>
    if c.denom = coin.denom then
      match c.amount.sub? coin.amount with
      | some left => .ok (⟨c.denom, left⟩ :: rest)
      | none => .error c.amount
    else (takeOut coin rest).map (c :: ·)

/-- Queues a request to the bank; there is nothing to ask for an empty coin. -/
def queue (e : Escrow) (coin : Coin) (message : BankMessage) : Escrow :=
  if coin.amount = Amount.zero then e else { e with messages := e.messages ++ [message] }

end Escrow

/-! ## The ledger -/

namespace Ledger

/-- Adds a coin to what is held of its denom. -/
def credit (coin : Coin) : Operation Store Unit := do
  let locked ← .read (·.locked coin.denom)
  match locked.add? coin.amount with
  | some sum => .update (·.save (.locked coin.denom) sum)
  | none => .stop (.store (.overflow locked.val coin.amount.val))

/-- Takes a coin from what is held of its denom, and removes the row when nothing is left. -/
def debit (coin : Coin) : Operation Store Unit := do
  let locked ← .read (·.locked coin.denom)
  match locked.sub? coin.amount with
  | some left =>
    .update fun s =>
      if left = Amount.zero then s.clear (.locked coin.denom)
      else s.save (.locked coin.denom) left
  | none => .stop (.underfunded coin.denom locked coin.amount)

end Ledger

/-! ## The vault -/

/-- The store and the escrow of the call at hand. -/
@[ext] structure Vault where
  store : Store
  escrow : Escrow

namespace Vault

/-- An operation on the store, with the escrow kept. -/
def onStore {α : Type} (x : Operation Store α) : Operation Vault α :=
  ExceptT.mk fun v =>
    let (answer, store) := x.run v.store
    (answer, { v with store })

/-- Takes a coin of `sender` from the attached coins and credits it. -/
def lock (sender : String) (coin : Coin) : Operation Vault Unit := do
  let v ← get
  .require (sender = v.escrow.funder) .unauthorized
  match Escrow.takeOut coin v.escrow.available with
  | .ok left =>
    .update fun v => { v with escrow := { v.escrow with available := left } }
    onStore (Ledger.credit coin)
  | .error got => .stop (.insufficientFunds coin.denom coin.amount got)

/-- Debits a coin and asks the bank to pay it to `receiver`. -/
def release (receiver : String) (coin : Coin) : Operation Vault Unit := do
  onStore (Ledger.debit coin)
  .update fun v => { v with escrow := v.escrow.queue coin (.send receiver [coin]) }

/-- Debits a coin and asks the bank to destroy it. -/
def burn (coin : Coin) : Operation Vault Unit := do
  onStore (Ledger.debit coin)
  .update fun v => { v with escrow := v.escrow.queue coin (.burn [coin]) }

/-- Stops if attached coins are left over. -/
def ensureConsumed : Operation Vault Unit := do
  let v ← get
  .lift id v.escrow.checkConsumed

/-- Runs an operation on a vault with the given escrow; answers the escrow it leaves beside its
value. -/
def withEscrow {α : Type} (escrow : Escrow) (x : Operation Vault α) :
    Operation Store (α × Escrow) :=
  ExceptT.mk fun store =>
    let (answer, v) := x.run ⟨store, escrow⟩
    (answer.map (·, v.escrow), v.store)

end Vault

end BridgePool
