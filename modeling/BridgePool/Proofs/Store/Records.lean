import BridgePool.Proofs.Store.Book
import BridgePool.Store.Records

/-!
# The lists of records

On a legible store the lists of transfers and of batches hold exactly the records of the book,
each once and in ascending order.

* `Store.Legible.mem_transfers`, `Store.Legible.mem_batches` — which records they hold;
* `Store.Legible.ascending_transfers` — in which order.
-/

namespace BridgePool.Store.Legible

variable {s : Store}

/-- A row belongs to a cell of the family that its key starts with. -/
theorem cell_of_head (h : s.Legible) {lead : UInt8} {key row : Bytes}
    (head : key.head? = some lead) (found : s.get? key = some row) :
    ∃ c : Cell, c.key = key ∧ c.family = lead ∧ c.Admits row := by
  obtain ⟨c, rfl, admits⟩ := h key row found
  rw [Cell.head?_key, Option.some.injEq] at head
  exact ⟨c, rfl, head, admits⟩

/-- A row that a scan of one kind of rows meets belongs to a cell of that kind. -/
theorem cell_of_family (h : s.Legible) {b : UInt8} (room : b ≠ 0xff) {key row : Bytes}
    (found : s.get? key = some row) (from_low : [b] ≤ key) (below_high : key < [b + 1]) :
    ∃ c : Cell, c.key = key ∧ c.family = b ∧ c.Admits row :=
  h.cell_of_head ((Cell.mem_family_range room).mp ⟨from_low, below_high⟩) found

theorem family_range_of_key {b : UInt8} (room : b ≠ 0xff) {c : Cell} (kind : c.family = b) :
    [b] ≤ c.key ∧ c.key < [b + 1] :=
  (Cell.mem_family_range room).mpr (by rw [Cell.head?_key, kind])

theorem transfer_row (h : s.Legible) {key row : Bytes}
    (mem : (key, row) ∈ s.range [0x01] [0x02]) :
    ∃ t : Transfer, key = (Cell.transfer t.id).key ∧ row = Codec.bytes t := by
  obtain ⟨found, low, high⟩ := mem_range.mp mem
  dsimp only at found low high
  obtain ⟨c, rfl, kind, admits⟩ := h.cell_of_family (b := 0x01) (by decide) found low high
  cases admits <;> simp [Cell.family] at kind
  case transfer t => exact ⟨t, rfl, rfl⟩

theorem mem_transfers (h : s.Legible) {t : Transfer} :
    t ∈ s.transfers ↔ s.book.transfer t.id = some t := by
  rw [transfers, mem_readRange]
  constructor
  · rintro ⟨key, row, found, low, high, read⟩
    obtain ⟨u, rfl, rfl⟩ := h.transfer_row (mem_range.mpr ⟨found, low, high⟩)
    rw [Codec.ofBytes?_bytes, Option.some.injEq] at read
    subst read
    simp [book, value?, found]
  · intro kept
    obtain ⟨_, found⟩ := h.get?_transfer kept
    obtain ⟨low, high⟩ := family_range_of_key (b := 0x01) (by decide) (c := .transfer t.id) rfl
    exact ⟨_, _, found, low, high, Codec.ofBytes?_bytes t⟩

theorem ascending_transfers (h : s.Legible) : s.transfers.Pairwise (·.id < ·.id) := by
  rw [transfers, readRange, List.pairwise_filterMap]
  refine (sorted_range s _ _).imp_of_mem ?_
  rintro ⟨keyT, rowT⟩ ⟨keyU, rowU⟩ memT memU below t readT u readU
  obtain ⟨t', rfl, rfl⟩ := h.transfer_row memT
  obtain ⟨u', rfl, rfl⟩ := h.transfer_row memU
  simp only [Codec.ofBytes?_bytes, Option.some.injEq] at readT readU
  subst readT readU
  simpa [Cell.key, List.cons_lt_cons_iff, Cell.word_lt_iff] using below

theorem nodup_transfers (h : s.Legible) : (s.transfers.map (·.id)).Nodup := by
  rw [List.Nodup, List.pairwise_map]
  exact h.ascending_transfers.imp fun below same => absurd (same ▸ below) (UInt64.lt_irrefl _)

theorem mem_batches (h : s.Legible) {b : Batch} :
    b ∈ s.batches ↔ s.book.batch b.nonce = some b := by
  rw [batches, mem_readRange]
  constructor
  · rintro ⟨key, row, found, low, high, read⟩
    obtain ⟨c, rfl, kind, admits⟩ := h.cell_of_family (b := 0x03) (by decide) found low high
    cases admits <;> simp [Cell.family] at kind
    case batch b' =>
      rw [Codec.ofBytes?_bytes, Option.some.injEq] at read
      subst read
      simp [book, value?, found]
  · intro kept
    obtain ⟨_, found⟩ := h.get?_batch kept
    obtain ⟨low, high⟩ := family_range_of_key (b := 0x03) (by decide) (c := .batch b.nonce) rfl
    exact ⟨_, _, found, low, high, Codec.ofBytes?_bytes b⟩

end BridgePool.Store.Legible
