import BridgePool.Proofs.Pool.Contracts
import BridgePool.Proofs.Store.Scans

/-!
# The layout of the store

Keys sort as what they are made of, can be read back, and tell all things in the store apart. A scan
of one kind of rows meets no row of another kind, whatever the store holds (`Store.layoutExact`).
That is so of the listings as well: each of them answers the same for two stores that agree on the
rows of its kind, however different their other rows are (`Store.ScannedAlike`).
-/

namespace BridgePool

variable {s s' : Store}

/-! ## Records -/

namespace Store

theorem transfers_congr (agree : s.AgreeUnder [0x01] s') : s.transfers = s'.transfers := by
  have rows : s.range [0x01] [0x02] = s'.range [0x01] [0x02] :=
    Scan.rows_congr .transfers agree
  rw [transfers, transfers, readRange, readRange, rows]

theorem range_fees_congr (agree : s.AgreeUnder [0x02] s') :
    s.range [0x02] [0x03] = s'.range [0x02] [0x03] :=
  Scan.rows_congr .fees agree

theorem range_batches_congr (agree : s.AgreeUnder [0x03] s') :
    s.range [0x03] [0x04] = s'.range [0x03] [0x04] :=
  Scan.rows_congr .batches agree

theorem batches_congr (agree : s.AgreeUnder [0x03] s') : s.batches = s'.batches := by
  rw [batches, batches, readRange, readRange, range_batches_congr agree]

theorem batch?_congr (agree : s.AgreeUnder [0x03] s') : s.batch? = s'.batch? := by
  funext nonce
  have row : s.get? (Cell.batch nonce).key = s'.get? (Cell.batch nonce).key :=
    agree _ (Cell.prefix_key_iff.mpr rfl)
  rw [batch?, batch?, load?, load?, row]

end Store

/-! ## Listings of batches -/

namespace Batch

theorem listAfter_congr (agree : s.AgreeUnder [0x03] s') (after : Option UInt64) (limit : Nat) :
    listAfter s after limit = listAfter s' after limit := by
  have rows : rowsAfter s after = rowsAfter s' after := by
    cases after with
    | none => exact Store.range_batches_congr agree
    | some nonce =>
        have onward : s.range (Cell.batch (nonce + 1)).key [0x04] =
            s'.range (Cell.batch (nonce + 1)).key [0x04] :=
          Scan.rows_congr (.batchesFrom (nonce + 1)) agree
        rw [rowsAfter, rowsAfter, onward]
  rw [listAfter, listAfter, rows]

/-- The open batches are found through the rows of their contracts, and fetched by their nonces. -/
theorem openBatches_congr (agree : s.AgreeUnder [0x06] s') (batches : s.AgreeUnder [0x03] s') :
    openBatches s = openBatches s' := by
  have rows : s.range [0x06] [0x07] = s'.range [0x06] [0x07] :=
    Scan.rows_congr .openBatches agree
  rw [openBatches, openBatches, rows, Store.batch?_congr batches]

end Batch

/-! ## Listings of the pool -/

namespace Listing

section Contract

variable {contract : RawAddress} (agree : s.AgreeUnder (Cell.feeStart contract) s')

include agree

theorem ofContract_congr : ofContract s contract none = ofContract s' contract none := by
  have rows : s.range (Cell.feeStart contract) (Bytes.rangeEnd (Cell.feeStart contract)) =
      s'.range (Cell.feeStart contract) (Bytes.rangeEnd (Cell.feeStart contract)) :=
    Scan.rows_congr (.feesOf contract) agree
  simp only [ofContract, Option.getD_none, rows]

/-- A cursor that can be read ends the scan at a position of its owner. -/
theorem ofContract_congr_below {cursor key : Bytes} (read : ofCursor cursor = .ok (contract, key)) :
    ofContract s contract (some key) = ofContract s' contract (some key) := by
  obtain ⟨p, rfl, rfl⟩ := exists_of_ofCursor read
  rw [ofCursor_cursorOf] at read
  obtain ⟨_, rfl⟩ := Prod.mk.inj (Except.ok.inj read)
  have rows : s.range (Cell.feeStart p.contract) p.cell.key =
      s'.range (Cell.feeStart p.contract) p.cell.key :=
    Scan.rows_congr (.feesBelow p) agree
  simp only [ofContract, Option.getD_some, rows]

end Contract

theorem ofContractAfter_congr {contract : Address}
    (agree : s.AgreeUnder (Cell.feeStart contract.raw) s') (after : Option Bytes) :
    ofContractAfter s contract after = ofContractAfter s' contract after := by
  cases after with
  | none => rw [ofContractAfter, ofContractAfter, ofContract_congr agree]
  | some cursor =>
      simp only [ofContractAfter]
      cases read : ofCursor cursor with
      | error fault => rfl
      | ok named =>
          obtain ⟨owner, key⟩ := named
          by_cases own : owner = contract.raw
          · subst own
            simp only [bind, Except.bind, if_pos, ofContract_congr_below agree read]
          · simp only [bind, Except.bind, if_neg own]

section Pool

variable (agree : s.AgreeUnder [0x02] s')

include agree

theorem contractsFrom_congr (bound : Bytes) : contractsFrom s bound = contractsFrom s' bound := by
  rw [contractsFrom, contractsFrom, Store.range_fees_congr agree]

theorem nextContract_congr {bound : Bytes} (within : [0x02] ≤ bound) :
    nextContract s (some bound) = nextContract s' (some bound) := by
  have rows : s.range bound [0x03] = s'.range bound [0x03] := by
    rw [range_eq_filter within, range_eq_filter within, Store.range_fees_congr agree]
  simp only [nextContract, Option.bind_eq_bind, Option.bind_some, rows]

theorem ofContracts_congr (cs : List (Except StoreFault RawAddress)) :
    ofContracts s cs = ofContracts s' cs := by
  refine List.flatMap_congr fun item _ => ?_
  cases item with
  | error fault => rfl
  | ok contract => exact ofContract_congr (agree.feeStart contract)

theorem poolAfter_congr (after : Option Bytes) : poolAfter s after = poolAfter s' after := by
  cases after with
  | none =>
      rw [poolAfter, poolAfter, pool, pool, contracts, contracts, contractsFrom_congr agree,
        ofContracts_congr agree]
  | some cursor =>
      simp only [poolAfter]
      cases read : ofCursor cursor with
      | error fault => rfl
      | ok named =>
          obtain ⟨owner, key⟩ := named
          have rest := ofContract_congr_below (agree.feeStart owner) read
          simp only [bind, Except.bind, rest, contractsFrom_congr agree, ofContracts_congr agree]

end Pool

end Listing

/-! ## The layout -/

/-- What is scanned in one family of rows is the same in both stores if they agree on the family. -/
structure Store.ScannedAlike (s s' : Store) : Prop where
  transfers : s.AgreeUnder [0x01] s' → s.transfers = s'.transfers
  batches : s.AgreeUnder [0x03] s' → s.batches = s'.batches
  pages : s.AgreeUnder [0x03] s' → ∀ after limit,
    Batch.listAfter s after limit = Batch.listAfter s' after limit
  /-- The rows of the open batches name them, and the batches themselves are fetched. -/
  open_batches : s.AgreeUnder [0x06] s' → s.AgreeUnder [0x03] s' →
    Batch.openBatches s = Batch.openBatches s'
  /-- The listing of a contract goes through the contract's own fee rows only. -/
  contract : ∀ contract : Address, s.AgreeUnder (Cell.feeStart contract.raw) s' → ∀ after,
    Listing.ofContractAfter s contract after = Listing.ofContractAfter s' contract after
  /-- The listing of the pool goes through the fee rows. -/
  pool : s.AgreeUnder [0x02] s' → ∀ after, Listing.poolAfter s after = Listing.poolAfter s' after
  /-- So does the cursor over the contracts. -/
  next_contract : s.AgreeUnder [0x02] s' → ∀ bound, [0x02] ≤ bound →
    Listing.nextContract s (some bound) = Listing.nextContract s' (some bound)

namespace Store

theorem scannedAlike (s s' : Store) : s.ScannedAlike s' where
  transfers := transfers_congr
  batches := batches_congr
  pages := Batch.listAfter_congr
  open_batches := Batch.openBatches_congr
  contract _ := Listing.ofContractAfter_congr
  pool := Listing.poolAfter_congr
  next_contract agree _ := Listing.nextContract_congr agree

/-- In a legible store, a scan meets the rows of the cells it is after and no others. -/
theorem Legible.covered_of_mem_rows (h : s.Legible) {scan : Scan} {row : Bytes × Bytes}
    (mem : row ∈ scan.rows s) : ∃ c : Cell, c.key = row.1 ∧ scan.Covers c ∧ c.Admits row.2 := by
  obtain ⟨found, met⟩ := Scan.mem_rows.mp mem
  obtain ⟨c, same, admits⟩ := h _ _ found
  rw [← same] at met
  exact ⟨c, same, met.covers, admits⟩

/-- What the keys of the store say, and what a scan of them meets. -/
structure LayoutExact : Prop where
  /-- Keys of fee rows compare as their contracts, then as their fees, then as their ids. -/
  fee_order : ∀ (c d : RawAddress) (a b : TokenAmount) (i j : UInt64),
    compareOfLessAndEq (Cell.fee c a i).key (Cell.fee d b j).key =
      (compareOfLessAndEq c.val d.val).then ((compare a.val b.val).then (compare i j))
  /-- Exactly the keys of fee rows are read, as the contract and the id that they were made of. -/
  fee_read : ∀ (key : Bytes) (contract : RawAddress) (id : UInt64),
    Cell.feeKey? key = .ok (contract, id) ↔ ∃ amount, key = (Cell.fee contract amount id).key
  /-- Where a string has a byte below `0xff`, the strings that start with it are a range. -/
  start_range : ∀ start key : Bytes, (∃ b ∈ start, b ≠ 0xff) →
    (start ≤ key ∧ key < Bytes.rangeEnd start ↔ start <+: key)
  /-- For any other string there is no end of such a range. -/
  no_end : ∀ start : Bytes, Bytes.rangeEnd start = [] ↔ ∀ b ∈ start, b = 0xff
  /-- Different things are kept in different places. -/
  apart : ∀ c d : Cell, c ≠ d → c.key ≠ d.key
  /-- Whatever a store holds, a scan meets rows of its own family only. -/
  family : ∀ (scan : Scan) (s : Store), ∀ row ∈ scan.rows s, scan.start <+: row.1
  /-- Of the rows of cells, a scan meets those of the cells it is after, and all of them. -/
  cells : ∀ (scan : Scan) (s : Store) (c : Cell) (row : Bytes),
    (c.key, row) ∈ scan.rows s ↔ s.get? c.key = some row ∧ scan.Covers c
  /-- In a store that the bridge can come to there are no other rows to meet. -/
  reachable : ∀ s, Reachable s → ∀ (scan : Scan), ∀ row ∈ scan.rows s,
    ∃ c : Cell, c.key = row.1 ∧ scan.Covers c ∧ c.Admits row.2
  /-- What the listings answer does not depend on the rows of other families. -/
  alike : ∀ s s' : Store, s.ScannedAlike s'

/-- Keys are ordered, can be read back, and keep all cells and all families of rows apart. -/
theorem layoutExact : LayoutExact where
  fee_order := Cell.compare_fee_key
  fee_read _ _ _ := Cell.feeKey?_eq_ok
  start_range _ _ bounded := (Bytes.prefix_iff_range bounded).symm
  no_end _ := Bytes.rangeEnd_eq_nil_iff
  apart _ _ different same := different (Cell.key_injective same)
  family _ _ _ mem := (Scan.mem_rows.mp mem).2.starts
  cells _ _ _ _ := Scan.mem_rows.trans (and_congr_right fun _ => Scan.meets_key_iff)
  reachable _ reached _ _ mem := reached.keeps.legible.covered_of_mem_rows mem
  alike := scannedAlike

/-- Fees sort as numbers, and the rows of the highest contract end with all fee rows. -/
example :
    let high : RawAddress := ⟨List.replicate 20 0xff, List.length_replicate⟩
    (Cell.fee high ⟨255, by decide⟩ 2).key < (Cell.fee high ⟨256, by decide⟩ 1).key ∧
      Bytes.rangeEnd (Cell.feeStart high) = [0x03] := by
  decide +kernel

end Store

end BridgePool
