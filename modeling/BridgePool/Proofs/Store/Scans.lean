import BridgePool.Proofs.Store.Book

/-!
# What a scan meets

A scan goes through the keys of a range: all rows of one family, or those from a place in it on or
up to one. `Scan.Covers` says in terms of numbers and contracts which cells a scan is after.

* `Scan.Meets.starts` — whatever the store holds, each key that a scan meets starts as the keys of
  its family do;
* `Scan.meets_key_iff` — of the keys of cells, a scan meets those of the cells it is after;
* `Scan.rows_congr` — what a scan finds depends on the rows of its family only.
-/

namespace BridgePool

/-- A scan of a part of the store. -/
inductive Scan where
  | transfers
  | fees
  /-- The fee rows behind those of a contract. -/
  | feesBehind (contract : RawAddress)
  | feesOf (contract : RawAddress)
  /-- The fee rows of the position's contract that lie below the position. -/
  | feesBelow (p : Position)
  | batches
  /-- The batches from a nonce on. -/
  | batchesFrom (nonce : UInt64)
  | openBatches

namespace Scan

/-- What the keys of the family start with. -/
def start : Scan → Bytes
  | .transfers => [0x01]
  | .fees => [0x02]
  | .feesBehind _ => [0x02]
  | .feesOf contract => Cell.feeStart contract
  | .feesBelow p => Cell.feeStart p.contract
  | .batches => [0x03]
  | .batchesFrom _ => [0x03]
  | .openBatches => [0x06]

/-- Where the scan begins. -/
def low : Scan → Bytes
  | .feesBehind contract => Bytes.rangeEnd (Cell.feeStart contract)
  | .batchesFrom nonce => (Cell.batch nonce).key
  | scan => scan.start

/-- Where the scan ends. -/
def high : Scan → Bytes
  | .feesBelow p => p.cell.key
  | scan => Bytes.rangeEnd scan.start

/-- The key lies between the bounds of the scan. -/
def Meets (scan : Scan) (key : Bytes) : Prop :=
  scan.low ≤ key ∧ key < scan.high

/-- The rows of a store that the scan meets, in ascending order. -/
def rows (scan : Scan) (s : Store) : List (Bytes × Bytes) :=
  s.range scan.low scan.high

/-- The cells that the scan is after. -/
inductive Covers : Scan → Cell → Prop
  | transfers {id : UInt64} : Covers .transfers (.transfer id)
  | fees {contract : RawAddress} {amount : TokenAmount} {id : UInt64} :
      Covers .fees (.fee contract amount id)
  | feesBehind {contract other : RawAddress} {amount : TokenAmount} {id : UInt64}
      (later : contract.val < other.val) : Covers (.feesBehind contract) (.fee other amount id)
  | feesOf {contract : RawAddress} {amount : TokenAmount} {id : UInt64} :
      Covers (.feesOf contract) (.fee contract amount id)
  | feesBelow {p : Position} {amount : TokenAmount} {id : UInt64}
      (below : amount.val < p.fee.val ∨ amount.val = p.fee.val ∧ id < p.id) :
      Covers (.feesBelow p) (.fee p.contract amount id)
  | batches {nonce : UInt64} : Covers .batches (.batch nonce)
  | batchesFrom {first nonce : UInt64} (onward : first ≤ nonce) :
      Covers (.batchesFrom first) (.batch nonce)
  | openBatches {contract : RawAddress} : Covers .openBatches (.openBatch contract)

variable {scan : Scan} {key : Bytes} {c : Cell} {s s' : Store}

/-! ## Within the family -/

/-- The keys that start as those of the family do are a range. -/
theorem starts_iff : scan.start <+: key ↔
    scan.start ≤ key ∧ key < Bytes.rangeEnd scan.start := by
  -- every family has a first byte below `0xff`
  have bounded : ∃ b ∈ scan.start, b ≠ 0xff := by
    cases scan <;> exact ⟨_, List.mem_cons_self, by decide⟩
  exact Bytes.prefix_iff_range bounded

theorem start_le_low (scan : Scan) : scan.start ≤ scan.low := by
  cases scan with
  | feesBehind contract =>
      have front : [0x02] ≤ Cell.feeStart contract := List.IsPrefix.le (List.prefix_append _ _)
      exact List.le_trans front (List.le_of_lt (Cell.feeStart_lt_rangeEnd contract))
  | batchesFrom nonce => exact List.IsPrefix.le (List.prefix_append [0x03] (Cell.word nonce))
  | _ => exact List.le_refl _

theorem high_le_rangeEnd (scan : Scan) : scan.high ≤ Bytes.rangeEnd scan.start := by
  cases scan with
  | feesBelow p =>
      exact List.le_of_lt (Cell.fee_key_lt_rangeEnd_iff.mpr (List.lt_irrefl p.contract.val))
  | _ => exact List.le_refl _

/-- A scan meets keys of its family only. -/
theorem Meets.starts (met : scan.Meets key) : scan.start <+: key :=
  starts_iff.mpr ⟨List.le_trans scan.start_le_low met.1,
    Std.lt_of_lt_of_le met.2 scan.high_le_rangeEnd⟩

/-! ## Cells -/

/-- The cells whose keys a scan meets are among those that it is after. -/
theorem Meets.covers (met : scan.Meets c.key) : scan.Covers c := by
  have family := met.starts
  obtain ⟨low, high⟩ := met
  cases scan with
  | transfers =>
      cases c <;> simp [start, Cell.prefix_key_iff, Cell.family] at family
      exact .transfers
  | fees =>
      cases c <;> simp [start, Cell.prefix_key_iff, Cell.family] at family
      exact .fees
  | feesBehind contract =>
      cases c <;> simp [start, Cell.prefix_key_iff, Cell.family] at family
      refine .feesBehind (not_not.mp fun earlier => ?_)
      exact List.not_lt.mpr low (Cell.fee_key_lt_rangeEnd_iff.mpr earlier)
  | feesOf contract =>
      obtain ⟨amount, id, rfl⟩ := Cell.feeStart_prefix_key_iff.mp family
      exact .feesOf
  | feesBelow p =>
      obtain ⟨amount, id, rfl⟩ := Cell.feeStart_prefix_key_iff.mp family
      refine .feesBelow ((Cell.fee_key_lt_iff.mp high).elim (fun lower => ?_) And.right)
      exact absurd lower (List.lt_irrefl _)
  | batches =>
      cases c <;> simp [start, Cell.prefix_key_iff, Cell.family] at family
      exact .batches
  | batchesFrom first =>
      cases c <;> simp [start, Cell.prefix_key_iff, Cell.family] at family
      exact .batchesFrom (Cell.batch_key_le_iff.mp low)
  | openBatches =>
      cases c <;> simp [start, Cell.prefix_key_iff, Cell.family] at family
      exact .openBatches

/-- The cells that a scan is after are of its family. -/
theorem Covers.starts (covers : scan.Covers c) : scan.start <+: c.key := by
  cases covers with
  | feesOf => exact Cell.feeStart_prefix_key_iff.mpr ⟨_, _, rfl⟩
  | feesBelow => exact Cell.feeStart_prefix_key_iff.mpr ⟨_, _, rfl⟩
  | _ => exact Cell.prefix_key_iff.mpr rfl

/-- A scan meets the keys of all cells that it is after. -/
theorem Covers.meets (covers : scan.Covers c) : scan.Meets c.key := by
  obtain ⟨from_start, before_end⟩ := starts_iff.mp covers.starts
  cases covers with
  | feesBehind later =>
      refine ⟨List.not_lt.mp fun below => ?_, before_end⟩
      exact Cell.fee_key_lt_rangeEnd_iff.mp below later
  | feesBelow below => exact ⟨from_start, Cell.fee_key_lt_iff.mpr (.inr ⟨rfl, below⟩)⟩
  | batchesFrom onward => exact ⟨Cell.batch_key_le_iff.mpr onward, before_end⟩
  | _ => exact ⟨from_start, before_end⟩

/-- Of the keys of cells, a scan meets those of the cells it is after. -/
theorem meets_key_iff : scan.Meets c.key ↔ scan.Covers c :=
  ⟨Meets.covers, Covers.meets⟩

/-! ## Rows -/

theorem mem_rows {row : Bytes × Bytes} :
    row ∈ scan.rows s ↔ s.get? row.1 = some row.2 ∧ scan.Meets row.1 :=
  Store.mem_range

end Scan

/-- The stores have the same rows under the keys that start so. -/
def Store.AgreeUnder (start : Bytes) (s s' : Store) : Prop :=
  ∀ key, start <+: key → s.get? key = s'.get? key

theorem Store.AgreeUnder.mono {start longer : Bytes} {s s' : Store} (agree : s.AgreeUnder start s')
    (extends_start : start <+: longer) : s.AgreeUnder longer s' :=
  fun key longer_start => agree key (extends_start.trans longer_start)

/-- Stores that agree on the fee rows agree on those of each contract. -/
theorem Store.AgreeUnder.feeStart {s s' : Store} (agree : s.AgreeUnder [0x02] s')
    (contract : RawAddress) : s.AgreeUnder (Cell.feeStart contract) s' :=
  agree.mono (List.prefix_append _ _)

/-- What a scan finds depends on the rows of its family only. -/
theorem Scan.rows_congr (scan : Scan) {s s' : Store} (agree : s.AgreeUnder scan.start s') :
    scan.rows s = scan.rows s' := by
  refine Store.eq_of_mem_iff (s.sorted_range _ _) (s'.sorted_range _ _) fun row => ?_
  rw [mem_rows, mem_rows]
  exact and_congr_left fun met => by rw [agree row.1 met.starts]

end BridgePool
