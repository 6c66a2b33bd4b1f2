import BridgePool.Fault
import BridgePool.Store

/-!
# Where things are kept

A `Cell` is one thing the store can hold; `Cell.key` is where it is kept. Numbers in keys are
big-endian, so keys sort as the numbers do:

* `01 | id` — a transfer;
* `02 | contract | fee | id` — a fee row, one for each transfer that waits in the pool;
* `03 | nonce` — a batch;
* `04`, `05` — the next transfer id and the last batch nonce;
* `06 | contract` — the nonce of a contract's open batch;
* `00 0f locked_balances | denom` — what the escrow holds of a denom;
* `config`, `pending_admin`, `last_observed_eth_height`, `contract_info` — single records.
-/

namespace BridgePool

/-- One thing the store can hold. Contracts count by their bytes, denoms by their spelling. -/
inductive Cell where
  | transfer (id : UInt64)
  | fee (contract : RawAddress) (amount : TokenAmount) (id : UInt64)
  | batch (nonce : UInt64)
  | nextId
  | lastNonce
  | openBatch (contract : RawAddress)
  | locked (denom : String)
  | config
  | proposal
  | observedHeight
  | release
  deriving DecidableEq

namespace Cell

/-- A machine word as eight big-endian bytes. -/
def word (n : UInt64) : Bytes :=
  Bytes.bigEndian 8 n.toNat

/-- The start of the keys of one contract's fee rows. -/
def feeStart (contract : RawAddress) : Bytes :=
  0x02 :: contract.val

/-- The start of the keys of the escrow's rows. -/
def lockedStart : Bytes :=
  0x00 :: 0x0f :: utf8 "locked_balances"

/-- Where a thing is kept. -/
def key : Cell → Bytes
  | .transfer id => 0x01 :: word id
  | .fee contract amount id => feeStart contract ++ Bytes.bigEndian 32 amount.val ++ word id
  | .batch nonce => 0x03 :: word nonce
  | .nextId => [0x04]
  | .lastNonce => [0x05]
  | .openBatch contract => 0x06 :: contract.val
  | .locked denom => lockedStart ++ utf8 denom
  | .config => utf8 "config"
  | .proposal => utf8 "pending_admin"
  | .observedHeight => utf8 "last_observed_eth_height"
  | .release => utf8 "contract_info"

/-- The number of an eight-byte row. -/
def word? (b : Bytes) : Except StoreFault UInt64 :=
  if b.length = 8 then .ok (UInt64.ofNat (Bytes.toNat b)) else .error (.wordLength b.length)

/-- The contract and the transfer id of a fee row's key. The fee between them is not looked at. -/
def feeKey? (key : Bytes) : Except StoreFault (RawAddress × UInt64) :=
  if h : key.length = 61 ∧ key.head? = some 0x02 then
    .ok (⟨(key.drop 1).take 20, by simp only [List.length_take, List.length_drop]; omega⟩,
      UInt64.ofNat (Bytes.toNat (key.drop 53)))
  else .error (.feeKeyLength key.length)

end Cell

end BridgePool
