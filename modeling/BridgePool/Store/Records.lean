import BridgePool.Store.Rows

/-!
# The records of a store

The transfers and batches that a store keeps, read off all its rows at once and not by way of a
counter or an index. The indices, the ledger and the listings can be held against these lists:

* `Store.waiting` — the transfers that the fee rows should list;
* `Store.batchesOpen` — the batches whose contracts should have an open nonce;
* `Store.worth` — what the ledger should hold of a denom;
* `Transfer.listedBefore` — the order in which a listing should name them.
-/

namespace BridgePool

namespace Transfer

/-- What the escrow holds for the transfer. -/
def worth (t : Transfer) : Nat :=
  t.token.amount.val + t.fee.amount.val

/-- Listing order: contracts ascending by bytes, then fees descending, then ids descending. -/
def listedBefore (t u : Transfer) : Prop :=
  t.fee.contract.raw.val < u.fee.contract.raw.val ∨
    t.fee.contract.raw = u.fee.contract.raw ∧
      (u.fee.amount.val < t.fee.amount.val ∨
        u.fee.amount.val = t.fee.amount.val ∧ u.id < t.id)

end Transfer

namespace Store

/-- The rows from `low` up to but without `high`, read as values; rows that do not read are left
out. -/
def readRange (α : Type) [Codec α] (s : Store) (low high : Bytes) : List α :=
  (s.range low high).filterMap fun row => Codec.ofBytes? row.2

/-- The kept transfers, in ascending order of their rows. -/
def transfers (s : Store) : List Transfer :=
  s.readRange Transfer [0x01] [0x02]

/-- The kept batches, in ascending order of their rows. -/
def batches (s : Store) : List Batch :=
  s.readRange Batch [0x03] [0x04]

/-- The transfers that wait in the pool. -/
def waiting (s : Store) : List Transfer :=
  s.transfers.filter (·.state = .unbatched)

/-- The batches in the open state. -/
def batchesOpen (s : Store) : List Batch :=
  s.batches.filter (·.state = .open)

/-- What the kept transfers of a denom are worth together. -/
def worth (s : Store) (denom : String) : Nat :=
  (s.transfers.filter (·.token.denom = denom)).foldr (fun t total => t.worth + total) 0

theorem mem_readRange {α : Type} [Codec α] {s : Store} {low high : Bytes} {a : α} :
    a ∈ s.readRange α low high ↔
      ∃ key row, s.get? key = some row ∧ low ≤ key ∧ key < high ∧ Codec.ofBytes? row = some a := by
  simp only [readRange, List.mem_filterMap, Prod.exists, mem_range, and_assoc]

end Store

end BridgePool
