import BridgePool.Account
import BridgePool.Batch
import BridgePool.Config

/-!
# Faults

Everything that can stop an operation, as causes. `StoreFault` holds what reading the store can
run into, `QueryFault` adds what is wrong with a question, and `Fault` is what a call answers.
Each has its wording in one function; a fault without a fixed wording has none.
-/

namespace BridgePool

/-- What reading and counting in the store can run into. -/
inductive StoreFault where
  /-- A row or a message that does not read as what it should be. -/
  | malformed
  /-- A counter row that is not eight bytes long. -/
  | wordLength (length : Nat)
  /-- A fee row or a cursor that does not have the length of one. -/
  | feeKeyLength (length : Nat)
  | idsExhausted
  | noncesExhausted
  /-- A cursor into another token's listing. -/
  | foreignCursor (cursor asked : Address)
  /-- A fee row whose transfer is not there. -/
  | missingTransfer (id : UInt64)
  | missingConfig
  /-- A sum that is too large for its place. -/
  | overflow (a b : Nat)
  deriving DecidableEq

/-- The wording of a store fault. -/
def StoreFault.message? : StoreFault → Option String
  | .malformed => none
  | .wordLength n => some ("Generic error: Invalid u64 length: " ++ Decimal.text n)
  | .feeKeyLength n => some ("Generic error: Invalid fee index key length: " ++ Decimal.text n)
  | .idsExhausted => some "Generic error: transfer id space exhausted"
  | .noncesExhausted => some "Generic error: batch nonce space exhausted"
  | .foreignCursor cursor asked =>
    some ("Generic error: Cursor belongs to " ++ cursor.spelling ++ ", not " ++ asked.spelling)
  | .missingTransfer id =>
    some ("outgoing transfer " ++ Decimal.text id.toNat ++ " not found")
  | .missingConfig =>
    some "type: gravity_bridge::state::Config; key: [63, 6F, 6E, 66, 69, 67] not found"
  | .overflow a b =>
    some ("Overflow: Cannot Add with " ++ Decimal.text a ++ " and " ++ Decimal.text b)

/-- What can stop a query. -/
inductive QueryFault where
  | store (fault : StoreFault)
  /-- A question about something that is no address or denom. -/
  | token (fault : TokenFault)
  deriving DecidableEq

/-- The wording of a query fault. -/
def QueryFault.message? : QueryFault → Option String
  | .store fault => fault.message?
  | .token fault => some ("Generic error: " ++ fault.message)

/-- What can stop a call. -/
inductive Fault where
  | store (fault : StoreFault)
  | token (fault : TokenFault)
  | account (fault : AccountFault)
  | config (fault : ConfigFault)
  | unauthorized
  | notCandidate
  | noProposal
  | timelocked (remaining : Nat)
  | paused
  | insufficientFunds (denom : String) (needed got : CoinAmount)
  | unexpectedFunds (coins : List Coin)
  | underfunded (denom : String) (locked needed : CoinAmount)
  | zeroAmount
  | transferNotFound (id : UInt64)
  | alreadyBatched (id nonce : UInt64)
  | batchPending (contract : Address) (nonce : UInt64)
  | noObservedHeight
  | noTransferable (contract : Address)
  | batchNotFound (nonce : UInt64)
  | alreadyTerminal (nonce : UInt64) (state : BatchState)
  | outOfOrder (expected got : UInt64)
  /-- A time past the end of the clock. -/
  | clockOverflow
  deriving DecidableEq

/-- An amount of a denom as faults spell it. -/
def spellAmount (amount : CoinAmount) (denom : String) : String :=
  Decimal.text amount.val ++ denom

/-- The wording of a fault. -/
def Fault.message? : Fault → Option String
  | .store fault => fault.message?
  | .token fault => some fault.message
  | .account fault => some ("Generic error: " ++ fault.reason)
  | .config fault => some ("Invalid config: " ++ fault.reason)
  | .unauthorized => some "Unauthorized: caller is not permitted to perform this action"
  | .notCandidate => some "Unauthorized: only pending admin can accept"
  | .noProposal => some "No pending admin change"
  | .timelocked remaining =>
    some ("Timelock not expired: " ++ Decimal.text remaining ++ " seconds remaining")
  | .paused => some "Bridge is paused"
  | .insufficientFunds denom needed got =>
    some ("Insufficient funds: need " ++ spellAmount needed denom ++ ", got "
      ++ spellAmount got denom)
  | .unexpectedFunds coins =>
    some ("Unexpected funds attached: " ++ String.intercalate "," (coins.map Coin.display))
  | .underfunded denom locked needed =>
    some ("Module account underfunded: holds " ++ spellAmount locked denom ++ ", needs "
      ++ spellAmount needed denom)
  | .zeroAmount => some "Invalid amount: Amount must be greater than zero"
  | .transferNotFound id => some ("Outgoing transfer not found: " ++ Decimal.text id.toNat)
  | .alreadyBatched id nonce =>
    some ("Outgoing transfer " ++ Decimal.text id.toNat ++ " is already in batch "
      ++ Decimal.text nonce.toNat)
  | .batchPending contract nonce =>
    some ("Batch " ++ Decimal.text nonce.toNat ++ " is still pending for " ++ contract.spelling)
  | .noObservedHeight => some "No Ethereum block height observed yet"
  | .noTransferable contract => some ("No transferable transactions for " ++ contract.spelling)
  | .batchNotFound nonce => some ("Batch not found: " ++ Decimal.text nonce.toNat)
  | .alreadyTerminal nonce state =>
    some ("Batch " ++ Decimal.text nonce.toNat ++ " is already " ++ state.name)
  | .outOfOrder expected got =>
    some ("Out of order batch execution: expected " ++ Decimal.text expected.toNat ++ ", got "
      ++ Decimal.text got.toNat)
  | .clockOverflow => none

end BridgePool
