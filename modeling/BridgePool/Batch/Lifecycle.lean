import BridgePool.Pool
import BridgePool.Pool.Listing

/-!
# The life of a batch

A batch is built from the front of its token's listing and is open until it is executed,
cancelled or timed out. A contract has at most one open batch, whose nonce the store keeps beside
it. Execution burns what the escrow holds for the batch's transfers and drops them; every other
end puts the transfers back into the pool.
-/

namespace BridgePool.Batch

/-- Moves a waiting transfer into the batch with this nonce. -/
def assign (nonce : UInt64) (t : Transfer) : Operation Store Unit := do
  .update (·.removeFeeRow t)
  .update (·.saveTransfer { t with state := .inBatch nonce })

/-- Puts the first `count` waiting transfers of a contract into a new open batch. All of them are
fetched before anything is written. The batch spells the contract as its first transfer does. -/
def build (block : UInt64) (contract : Address) (count : Nat) (timeout : UInt64) :
    Operation Store Batch := do
  match ← .read (·.openNonce? contract) with
  | some nonce => .stop (.batchPending contract nonce)
  | none =>
    let selected ← .read fun s =>
      Listing.first s (Listing.ofContract s contract.raw none) count
    match selected with
    | [] => .stop (.noTransferable contract)
    | lead :: _ =>
      let nonce ← .take Store.takeNonce
      selected.forM (assign nonce)
      let batch : Batch :=
        { nonce, timeout, ids := selected.map (·.id), contract := lead.token.contract, block,
          state := .open }
      .update (·.saveBatch batch)
      .update (·.saveOpenNonce batch.contract nonce)
      return batch

/-- The batch with this nonce, which must be there and open. -/
def loadOpen (nonce : UInt64) : Operation Store Batch := do
  match ← .read (·.batch? nonce) with
  | none => .stop (.batchNotFound nonce)
  | some batch =>
    .require (batch.state.isTerminal = false) (.alreadyTerminal nonce batch.state)
    return batch

/-- The transfer that a batch lists, which must be there. -/
def carried (id : UInt64) : Operation Store Transfer := do
  match ← .read (·.transfer? id) with
  | some t => return t
  | none => .stop (.transferNotFound id)

/-- Closes a batch: it is kept in its terminal state, and its contract has no open batch. -/
def close (batch : Batch) (state : BatchState) : Operation Store Batch := do
  let closed := { batch with state }
  .update (·.saveBatch closed)
  .update (·.clearOpenNonce batch.contract)
  return closed

/-- Puts a carried transfer back into the pool. -/
def putBack (id : UInt64) : Operation Store Unit := do
  let t ← carried id
  let waiting := { t with state := .unbatched }
  .update (·.saveTransfer waiting)
  .update (·.addFeeRow waiting)

/-- Puts the transfers of a batch back into the pool and closes the batch. -/
def returnToPool (batch : Batch) (state : BatchState) : Operation Store Batch := do
  batch.ids.forM putBack
  close batch state

/-- Burns what the escrow holds for a carried transfer, and drops the transfer. -/
def settle (id : UInt64) : Operation Vault Unit := do
  let t ← Vault.onStore (carried id)
  let coin ← .lift .token (Pool.heldCoin t)
  Vault.burn coin
  Vault.onStore (.update (·.removeTransfer id))

/-- The batch was executed on the far chain: its transfers are settled. It has to be the open
batch of its contract. -/
def execute (nonce : UInt64) : Operation Vault Batch := do
  let batch ← Vault.onStore (loadOpen nonce)
  let expected ← Vault.onStore (.read (·.openNonce? batch.contract))
  .require (expected = some nonce) (.outOfOrder (expected.getD 0) nonce)
  batch.ids.forM settle
  Vault.onStore (close batch .executed)

/-- Abandons an open batch. -/
def cancel (nonce : UInt64) : Operation Store Batch := do
  let batch ← loadOpen nonce
  returnToPool batch .cancelled

/-- The batches that are recorded as open, in ascending order of their contracts. -/
def openBatches (s : Store) : Except StoreFault (List Batch) := do
  let nonces ← (s.range [0x06] [0x07]).mapM fun row => Cell.word? row.2
  let batches ← nonces.mapM s.batch?
  return batches.filterMap id

/-- Times out every open batch whose timeout lies below the height, and answers those batches. -/
def prune (height : UInt64) : Operation Store (List Batch) := do
  let batches ← .read openBatches
  (batches.filter (·.timeout < height)).mapM (returnToPool · .timedOut)

/-- The open batch of a contract, if it has one. -/
def pending? (s : Store) (contract : Address) : Except StoreFault (Option Batch) := do
  match ← s.openNonce? contract with
  | some nonce => s.batch? nonce
  | none => return none

/-- The rows of batches, from the nonce after the given one on. -/
def rowsAfter (s : Store) (after : Option UInt64) : List (Bytes × Bytes) :=
  match after with
  | none => s.range [0x03] [0x04]
  | some nonce =>
    if nonce.toNat + 1 < UInt64.size then s.range (Cell.batch (nonce + 1)).key [0x04] else []

/-- At most `limit` batches, in ascending order of their nonces, after the given nonce. -/
def listAfter (s : Store) (after : Option UInt64) (limit : Nat) :
    Except StoreFault (List Batch) :=
  ((rowsAfter s after).take limit).mapM fun row =>
    match Codec.ofBytes? row.2 with
    | some batch => .ok batch
    | none => .error .malformed

end BridgePool.Batch
