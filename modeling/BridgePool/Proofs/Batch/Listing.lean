import BridgePool.Proofs.Indices
import BridgePool.Proofs.Pool.Listing

/-!
# The listing of batches

Nonces are given out one after the other and rows are kept in the order of their nonces, so a
listing goes through all batches after its start, up to the last one, and leaves none out
(`Store.Keeps.listAfter_eq`).
-/

namespace BridgePool

namespace Batch

/-- The nonce that a listing starts after; nonces start at one. -/
def cursor (after : Option UInt64) : Nat :=
  (after.map UInt64.toNat).getD 0

/-- The row of a recorded batch. -/
def row (batch : Batch) : Bytes × Bytes :=
  ((Cell.batch batch.nonce).key, Codec.bytes batch)

theorem sorted_rowsAfter (s : Store) (after : Option UInt64) :
    (rowsAfter s after).Pairwise (·.1 < ·.1) := by
  cases after with
  | none => exact s.sorted_range _ _
  | some nonce =>
      rw [rowsAfter]
      split
      next => exact s.sorted_range _ _
      next => exact List.Pairwise.nil

end Batch

variable {s : Store} {b : Book} {batch : Batch} {start : Nat}

namespace Book

/-- The batches after a nonce, up to the last one. -/
def batchesAfter (b : Book) (start : Nat) : List Batch :=
  (List.range' (start + 1) (b.last.toNat - start)).filterMap fun n => b.batch (UInt64.ofNat n)

namespace Recorded

variable (h : b.Recorded)

include h

/-- Every nonce up to the last one is that of a batch. -/
theorem exists_batch {n : Nat} (first : 1 ≤ n) (given : n ≤ b.last.toNat) :
    ∃ batch, b.batch (UInt64.ofNat n) = some batch ∧ batch.nonce.toNat = n := by
  have same : (UInt64.ofNat n).toNat = n :=
    UInt64.toNat_ofNat_of_lt' (Nat.lt_of_le_of_lt given b.last.toNat_lt)
  have found : (b.batch (UInt64.ofNat n)).isSome := by
    rw [h.numbered, UInt64.le_iff_toNat_le, UInt64.le_iff_toNat_le, same]
    exact ⟨first, given⟩
  obtain ⟨batch, found⟩ := Option.isSome_iff_exists.mp found
  exact ⟨batch, found, by rw [h.batch_nonce found, same]⟩

theorem bounds_of_batch (found : b.batch batch.nonce = some batch) :
    1 ≤ batch.nonce.toNat ∧ batch.nonce.toNat ≤ b.last.toNat := by
  have numbered := h.numbered.mp (Option.isSome_of_eq_some found)
  rwa [UInt64.le_iff_toNat_le, UInt64.le_iff_toNat_le] at numbered

theorem mem_batchesAfter :
    batch ∈ b.batchesAfter start ↔ b.batch batch.nonce = some batch ∧ start < batch.nonce.toNat := by
  simp only [batchesAfter, List.mem_filterMap, List.mem_range'_1]
  constructor
  · rintro ⟨n, ⟨low, high⟩, found⟩
    obtain ⟨other, found', nonce⟩ := h.exists_batch (n := n) (by omega) (by omega)
    obtain rfl := Option.some.inj (found.symm.trans found')
    rw [h.batch_nonce found] at nonce ⊢
    exact ⟨found, by omega⟩
  · rintro ⟨found, later⟩
    have bounds := h.bounds_of_batch found
    exact ⟨batch.nonce.toNat, ⟨by omega, by omega⟩, by rwa [UInt64.ofNat_toNat]⟩

/-- No nonce after the start is left out, and none comes twice. -/
theorem nonces_batchesAfter (start : Nat) : (b.batchesAfter start).map (·.nonce.toNat) =
    List.range' (start + 1) (b.last.toNat - start) := by
  rw [batchesAfter, List.map_filterMap]
  have each : ∀ n ∈ List.range' (start + 1) (b.last.toNat - start),
      (b.batch (UInt64.ofNat n)).map (·.nonce.toNat) = some n := by
    intro n mem
    rw [List.mem_range'_1] at mem
    obtain ⟨batch, found, nonce⟩ := h.exists_batch (n := n) (by omega) (by omega)
    rw [found, Option.map_some, nonce]
  rw [List.filterMap_congr each, List.filterMap_some]

/-- The first batches after a nonce have the next nonces, up to the last one. -/
theorem nonces_take (start count : Nat) :
    ((b.batchesAfter start).take count).map (·.nonce.toNat) =
      List.range' (start + 1) (min (start + count) b.last.toNat - start) := by
  rw [List.map_take, h.nonces_batchesAfter]
  rcases Nat.le_total (b.last.toNat - start) count with all | some
  · rw [List.take_range'_of_length_le all]
    exact congrArg (List.range' _) (by omega)
  · rw [List.take_range'_of_length_ge some]
    exact congrArg (List.range' _) (by omega)

theorem ascending_batchesAfter (start : Nat) :
    (b.batchesAfter start).Pairwise (·.nonce < ·.nonce) := by
  have ascending : (List.range' (start + 1) (b.last.toNat - start)).Pairwise (· < ·) :=
    List.pairwise_lt_range'
  rw [← h.nonces_batchesAfter, List.pairwise_map] at ascending
  exact ascending.imp UInt64.lt_iff_toNat_lt.mpr

end Recorded

end Book

/-! ## Rows -/

namespace Store.Keeps

variable (h : s.Keeps b)

include h

/-- A row of batches is the written form of a record. -/
theorem found_batch_iff {row : Bytes × Bytes} :
    s.get? row.1 = some row.2 ∧ row.1.head? = some 0x03 ↔
      ∃ batch, b.batch batch.nonce = some batch ∧ batch.row = row := by
  constructor
  · rintro ⟨found, head⟩
    obtain ⟨batch, key, kept, value⟩ := (batch_row_iff h head).mp found
    refine ⟨batch, kept, ?_⟩
    rw [Batch.row, ← key, ← value]
  · rintro ⟨batch, kept, rfl⟩
    dsimp only [Batch.row]
    have head : (Cell.batch batch.nonce).key.head? = some 0x03 := Cell.head?_key _
    exact ⟨(batch_row_iff h head).mpr ⟨batch, rfl, kept, rfl⟩, head⟩

/-- From the key of a nonce on come the batches of this nonce and of greater ones. -/
theorem mem_rowsFrom {nonce : UInt64} {row : Bytes × Bytes} :
    row ∈ s.range (Cell.batch nonce).key [0x04] ↔
      ∃ batch, b.batch batch.nonce = some batch ∧ nonce ≤ batch.nonce ∧ batch.row = row := by
  have first : [0x03] ≤ (Cell.batch nonce).key :=
    (Legible.family_range_of_key (b := 0x03) (by decide) rfl).1
  rw [mem_range]
  constructor
  · rintro ⟨found, low, high⟩
    have head := (Cell.mem_family_range (b := 0x03) (by decide)).mp ⟨List.le_trans first low, high⟩
    obtain ⟨batch, kept, rfl⟩ := h.found_batch_iff.mp ⟨found, head⟩
    exact ⟨batch, kept, Cell.batch_key_le_iff.mp low, rfl⟩
  · rintro ⟨batch, kept, low, rfl⟩
    obtain ⟨found, head⟩ := h.found_batch_iff.mpr ⟨batch, kept, rfl⟩
    have high := ((Cell.mem_family_range (b := 0x03) (by decide)).mpr head).2
    exact ⟨found, Cell.batch_key_le_iff.mpr low, high⟩

/-- The rows that a listing goes through are those of the batches after its start. -/
theorem mem_rowsAfter (recorded : b.Recorded) {after : Option UInt64} {row : Bytes × Bytes} :
    row ∈ Batch.rowsAfter s after ↔
      ∃ batch ∈ b.batchesAfter (Batch.cursor after), batch.row = row := by
  simp only [recorded.mem_batchesAfter, and_assoc]
  cases after with
  | none =>
      have family : [0x03] ≤ row.1 ∧ row.1 < [0x04] ↔ row.1.head? = some 0x03 :=
        Cell.mem_family_range (by decide)
      rw [Batch.rowsAfter, mem_range, family, h.found_batch_iff]
      refine exists_congr fun batch => and_congr_right fun kept => (and_iff_right ?_).symm
      exact (recorded.bounds_of_batch kept).1
  | some nonce =>
      rw [Batch.rowsAfter]
      split
      next room =>
        rw [h.mem_rowsFrom]
        refine exists_congr fun batch => and_congr_right fun _ => and_congr_left fun _ => ?_
        rw [UInt64.le_iff_toNat_le, toNat_succ room]
        exact Nat.succ_le_iff
      next full =>
        -- no nonce is greater than the last word
        refine iff_of_false List.not_mem_nil ?_
        rintro ⟨batch, _, later, _⟩
        have bound := batch.nonce.toNat_lt
        exact full (Nat.lt_of_le_of_lt later bound)

theorem rowsAfter_eq (recorded : b.Recorded) (after : Option UInt64) :
    Batch.rowsAfter s after = (b.batchesAfter (Batch.cursor after)).map Batch.row := by
  refine eq_of_mem_iff (Batch.sorted_rowsAfter s after) ?_ fun row => ?_
  · rw [List.pairwise_map]
    exact (recorded.ascending_batchesAfter _).imp Cell.batch_key_lt_iff.mpr
  · rw [List.mem_map, h.mem_rowsAfter recorded]

/-- A listing finds the batches after its start, as many as it may. -/
theorem listAfter_eq (recorded : b.Recorded) (after : Option UInt64) (limit : Nat) :
    Batch.listAfter s after limit = .ok ((b.batchesAfter (Batch.cursor after)).take limit) := by
  rw [Batch.listAfter, h.rowsAfter_eq recorded, ← List.map_take, List.mapM_map, mapM_eq_ok,
    List.forall₂_same]
  intro batch _
  rw [Function.comp_apply, Batch.row, Codec.ofBytes?_bytes]

end Store.Keeps

end BridgePool
