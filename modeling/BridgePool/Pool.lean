import BridgePool.Escrow

/-!
# The pool

Every transfer is kept once under its id. While it waits in the pool it also has a fee row, which
listings and batches are read from. What a transfer is worth lies in the escrow from `add` until
`cancel` pays it back or the batch that carries it is executed.
-/

namespace BridgePool.Pool

/-- Adds a transfer to the pool and answers its id. The escrow takes the coins before the id is
taken. The fee is kept under the spelling of the amount, so that one denom is held. -/
def add (sender : String) (destination : Address) (amount fee : Token) :
    Operation Vault UInt64 := do
  .require (amount.amount ≠ Amount.zero) .zeroAmount
  let total ← .lift .token (amount.add fee)
  let coin ← .lift .token total.coin
  Vault.lock sender coin
  Vault.onStore do
    let id ← .take Store.takeId
    let transfer : Transfer :=
      { id, sender, destination, token := amount,
        fee := ⟨fee.amount, amount.contract⟩, state := .unbatched }
    .update (·.saveTransfer transfer)
    .update (·.addFeeRow transfer)
    return id

/-- The voucher coin that the escrow holds for a transfer. -/
def heldCoin (t : Transfer) : Except TokenFault Coin := do
  (← t.total).coin

/-- Removes a transfer that waits in the pool and pays it back to its sender, who alone may ask
for it. Answers the transfer. -/
def cancel (id : UInt64) (sender : String) : Operation Vault Transfer := do
  let found ← Vault.onStore (.read (·.transfer? id))
  match found with
  | none => .stop (.transferNotFound id)
  | some t =>
    .require (t.sender = sender) .unauthorized
    match t.state with
    | .inBatch nonce => .stop (.alreadyBatched id nonce)
    | .unbatched =>
      Vault.onStore (.update (·.removeFeeRow t))
      Vault.onStore (.update (·.removeTransfer id))
      let coin ← .lift .token (heldCoin t)
      Vault.release t.sender coin
      return t

end BridgePool.Pool
