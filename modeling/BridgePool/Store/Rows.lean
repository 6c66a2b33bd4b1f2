import BridgePool.Store.Cell

/-!
# Rows as values

Typed access to the store: records are kept as the UTF-8 of their JSON text, counters and open
batch nonces as eight big-endian bytes, and a fee row as a single byte that marks its presence.
-/

namespace BridgePool.Store

/-- The record of a cell, if it has a row; a row that does not read is a fault. -/
def load? {α : Type} [Codec α] (s : Store) (c : Cell) : Except StoreFault (Option α) :=
  match s.get? c.key with
  | none => .ok none
  | some row =>
    match Codec.ofBytes? row with
    | some a => .ok (some a)
    | none => .error .malformed

/-- Writes the record of a cell. -/
def save {α : Type} [Codec α] (s : Store) (c : Cell) (a : α) : Store :=
  s.insert c.key (Codec.bytes a)

/-- The word of a cell, if it has a row. -/
def word? (s : Store) (c : Cell) : Except StoreFault (Option UInt64) :=
  match s.get? c.key with
  | none => .ok none
  | some row => (Cell.word? row).map some

/-- Writes the word of a cell. -/
def saveWord (s : Store) (c : Cell) (n : UInt64) : Store :=
  s.insert c.key (Cell.word n)

/-- Removes the row of a cell. -/
def clear (s : Store) (c : Cell) : Store :=
  s.erase c.key

/-! ## Transfers and their fee rows -/

/-- The transfer with this id, if there is one. -/
def transfer? (s : Store) (id : UInt64) : Except StoreFault (Option Transfer) :=
  s.load? (.transfer id)

/-- Writes a transfer under its id. -/
def saveTransfer (s : Store) (t : Transfer) : Store :=
  s.save (.transfer t.id) t

/-- Removes the transfer with this id. -/
def removeTransfer (s : Store) (id : UInt64) : Store :=
  s.clear (.transfer id)

/-- The fee row of a transfer. -/
def feeCell (t : Transfer) : Cell :=
  .fee t.fee.contract.raw t.fee.amount t.id

/-- Lists a transfer in the pool. -/
def addFeeRow (s : Store) (t : Transfer) : Store :=
  s.insert (feeCell t).key [0x01]

/-- Takes a transfer off the pool's list. -/
def removeFeeRow (s : Store) (t : Transfer) : Store :=
  s.clear (feeCell t)

/-! ## Batches -/

/-- The batch with this nonce, if there is one. -/
def batch? (s : Store) (nonce : UInt64) : Except StoreFault (Option Batch) :=
  s.load? (.batch nonce)

/-- Writes a batch under its nonce. -/
def saveBatch (s : Store) (b : Batch) : Store :=
  s.save (.batch b.nonce) b

/-- The nonce of a contract's open batch, if it has one. -/
def openNonce? (s : Store) (contract : Address) : Except StoreFault (Option UInt64) :=
  s.word? (.openBatch contract.raw)

/-- Records the nonce of a contract's open batch. -/
def saveOpenNonce (s : Store) (contract : Address) (nonce : UInt64) : Store :=
  s.saveWord (.openBatch contract.raw) nonce

/-- Records that a contract has no open batch. -/
def clearOpenNonce (s : Store) (contract : Address) : Store :=
  s.clear (.openBatch contract.raw)

/-! ## Counters -/

/-- The id the next transfer will get; ids start at one. -/
def nextId (s : Store) : Except StoreFault UInt64 :=
  (s.word? .nextId).map (·.getD 1)

/-- The nonce of the last batch; zero before the first. -/
def lastNonce (s : Store) : Except StoreFault UInt64 :=
  (s.word? .lastNonce).map (·.getD 0)

/-- Takes the next transfer id. The last one of all is never given out. -/
def takeId (s : Store) : Except StoreFault (UInt64 × Store) := do
  let id ← s.nextId
  if id.toNat + 1 < UInt64.size then return (id, s.saveWord .nextId (id + 1)) else .error .idsExhausted

/-- Takes the next batch nonce. -/
def takeNonce (s : Store) : Except StoreFault (UInt64 × Store) := do
  let last ← s.lastNonce
  if last.toNat + 1 < UInt64.size then return (last + 1, s.saveWord .lastNonce (last + 1))
  else .error .noncesExhausted

/-! ## Single records -/

/-- The configuration, which must be there. -/
def config (s : Store) : Except StoreFault Config := do
  match ← s.load? .config with
  | some c => return c
  | none => .error .missingConfig

/-- Writes the configuration. -/
def saveConfig (s : Store) (c : Config) : Store :=
  s.save .config c

/-- The pending proposal of an administrator, if there is one. -/
def proposal? (s : Store) : Except StoreFault (Option Proposal) :=
  s.load? .proposal

/-- The recorded height of the far chain, if there is one. -/
def recordedHeight? (s : Store) : Except StoreFault (Option UInt64) :=
  s.load? .observedHeight

/-- The last observed height of the far chain; zero before the first. -/
def observedHeight (s : Store) : Except StoreFault UInt64 :=
  s.recordedHeight?.map (·.getD 0)

/-- Records a height of the far chain. -/
def saveHeight (s : Store) (height : UInt64) : Store :=
  s.save .observedHeight height

/-- What the escrow holds of a denom. -/
def locked (s : Store) (denom : String) : Except StoreFault CoinAmount :=
  (s.load? (.locked denom)).map (·.getD Amount.zero)

end BridgePool.Store
