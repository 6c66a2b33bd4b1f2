import BridgePool.Proofs.Chain

/-!
# The indices follow the records

In every reachable store the rows of transfers and batches read as records of their own keys, the
fee rows are exactly those of the waiting transfers, and the open-batch rows exactly those of the
open batches (`Reachable.indicesExact`). Index keys are made of contract bytes, while records keep
the spellings they were given, so transfers of two spellings of one contract are listed together.
-/

namespace BridgePool

variable {s : Store} {b : Book}

namespace Store

/-- The indices of a store are a function of its records. -/
structure IndicesExact (s : Store) : Prop where
  /-- A row under `01` reads as the transfer whose id the key holds. -/
  transfer_rows : ∀ key row, key.head? = some 0x01 → s.get? key = some row →
    ∃ t : Transfer, Codec.ofBytes? row = some t ∧ key = (Cell.transfer t.id).key
  /-- A row under `03` reads as the batch whose nonce the key holds. -/
  batch_rows : ∀ key row, key.head? = some 0x03 → s.get? key = some row →
    ∃ batch : Batch, Codec.ofBytes? row = some batch ∧ key = (Cell.batch batch.nonce).key
  /-- The rows under `02` are those of the waiting transfers. -/
  fee_rows : ∀ key row, key.head? = some 0x02 →
    (s.get? key = some row ↔ row = [0x01] ∧ ∃ t ∈ s.waiting, key = (feeCell t).key)
  /-- A fee is spelled as the amount it goes with. -/
  spelled : ∀ t ∈ s.transfers, t.fee.contract = t.token.contract
  /-- The rows under `06` are those of the open batches. -/
  open_rows : ∀ key row, key.head? = some 0x06 →
    (s.get? key = some row ↔ ∃ batch ∈ s.batchesOpen,
      key = (Cell.openBatch batch.contract.raw).key ∧ row = Cell.word batch.nonce)
  /-- A contract has one open batch at most, however it is spelled. -/
  open_once : ∀ batch ∈ s.batchesOpen, ∀ other ∈ s.batchesOpen,
    batch.contract.raw = other.contract.raw → batch = other

theorem mem_waiting (h : s.Keeps b) {t : Transfer} :
    t ∈ s.waiting ↔ b.transfer t.id = some t ∧ t.state = .unbatched := by
  rw [waiting, List.mem_filter, h.legible.mem_transfers, h.book_eq, decide_eq_true_iff]

theorem mem_batchesOpen (h : s.Keeps b) {batch : Batch} :
    batch ∈ s.batchesOpen ↔ b.batch batch.nonce = some batch ∧ batch.state = .open := by
  rw [batchesOpen, List.mem_filter, h.legible.mem_batches, h.book_eq, decide_eq_true_iff]

/-- The rows of transfers are the written forms of the records, under their ids. -/
theorem transfer_row_iff (h : s.Keeps b) {key row : Bytes} (head : key.head? = some 0x01) :
    s.get? key = some row ↔ ∃ t : Transfer, key = (Cell.transfer t.id).key ∧
      b.transfer t.id = some t ∧ row = Codec.bytes t := by
  constructor
  · intro found
    obtain ⟨c, rfl, kind, admits⟩ := h.legible.cell_of_head head found
    cases admits <;> simp [Cell.family] at kind
    case transfer t =>
      rw [h.get?_transfer, Codec.map_bytes_eq_some] at found
      exact ⟨t, rfl, found, rfl⟩
  · rintro ⟨t, rfl, kept, rfl⟩
    rw [h.get?_transfer, kept, Option.map_some]

/-- The rows of batches are the written forms of the records, under their nonces. -/
theorem batch_row_iff (h : s.Keeps b) {key row : Bytes} (head : key.head? = some 0x03) :
    s.get? key = some row ↔ ∃ batch : Batch, key = (Cell.batch batch.nonce).key ∧
      b.batch batch.nonce = some batch ∧ row = Codec.bytes batch := by
  constructor
  · intro found
    obtain ⟨c, rfl, kind, admits⟩ := h.legible.cell_of_head head found
    cases admits <;> simp [Cell.family] at kind
    case batch batch =>
      rw [h.get?_key, Book.row, Codec.map_bytes_eq_some] at found
      exact ⟨batch, rfl, found, rfl⟩
  · rintro ⟨batch, rfl, recorded, rfl⟩
    rw [h.get?_key, Book.row, recorded, Option.map_some]

/-- The fee rows of a sound book are those of its waiting transfers. -/
theorem fee_row_iff (h : s.Keeps b) (sound : b.Sound) {key row : Bytes}
    (head : key.head? = some 0x02) :
    s.get? key = some row ↔ row = [0x01] ∧ ∃ t ∈ s.waiting, key = (feeCell t).key := by
  constructor
  · intro found
    obtain ⟨c, rfl, kind, admits⟩ := h.legible.cell_of_head head found
    cases admits <;> simp [Cell.family] at kind
    case fee contract amount id =>
      have listed : (⟨contract, amount, id⟩ : Position) ∈ b.listed :=
        h.mem_listed.mpr (Option.isSome_iff_exists.mpr ⟨_, found⟩)
      obtain ⟨t, kept, waits, place⟩ := sound.listed_iff.mp listed
      obtain rfl : t.id = id := sound.transfer_id kept
      refine ⟨rfl, t, (mem_waiting h).mpr ⟨kept, waits⟩, ?_⟩
      exact congrArg (fun p => p.cell.key) place.symm
  · rintro ⟨rfl, t, mem, rfl⟩
    obtain ⟨kept, waits⟩ := (mem_waiting h).mp mem
    have place : t.position ∈ b.listed := sound.listed_iff.mpr ⟨t, kept, waits, rfl⟩
    obtain ⟨row, found⟩ := Option.isSome_iff_exists.mp (h.mem_listed.mp place)
    cases h.legible.admits found with
    | fee => exact found

/-- The open-batch rows of a sound book are those of its open batches. -/
theorem open_row_iff (h : s.Keeps b) (sound : b.Sound) {key row : Bytes}
    (head : key.head? = some 0x06) :
    s.get? key = some row ↔ ∃ batch ∈ s.batchesOpen,
      key = (Cell.openBatch batch.contract.raw).key ∧ row = Cell.word batch.nonce := by
  have range : [0x06] ≤ key ∧ key < [0x07] :=
    (Cell.mem_family_range (b := 0x06) (by decide)).mpr head
  have opened := Batch.mem_openRows h sound.filed key row
  rw [mem_range] at opened
  dsimp only at opened
  rw [and_iff_left range] at opened
  rw [opened]
  simp only [Batch.openRow, Prod.mk.injEq, mem_batchesOpen h, eq_comm]

theorem Keeps.indices_exact (h : s.Keeps b) (sound : b.Sound) : s.IndicesExact where
  transfer_rows key row head found := by
    obtain ⟨c, rfl, kind, admits⟩ := h.legible.cell_of_head head found
    cases admits <;> simp [Cell.family] at kind
    case transfer t => exact ⟨t, Codec.ofBytes?_bytes t, rfl⟩
  batch_rows key row head found := by
    obtain ⟨c, rfl, kind, admits⟩ := h.legible.cell_of_head head found
    cases admits <;> simp [Cell.family] at kind
    case batch batch => exact ⟨batch, Codec.ofBytes?_bytes batch, rfl⟩
  fee_rows _ _ := fee_row_iff h sound
  spelled t mem := by
    rw [h.legible.mem_transfers, h.book_eq] at mem
    exact sound.spelled mem
  open_rows _ _ := open_row_iff h sound
  open_once batch mem other mem' same := by
    obtain ⟨recorded, opened⟩ := (mem_batchesOpen h).mp mem
    obtain ⟨recorded', opened'⟩ := (mem_batchesOpen h).mp mem'
    have first := sound.open_iff.mpr ⟨batch, recorded, opened, rfl⟩
    have second := sound.open_iff.mpr ⟨other, recorded', opened', rfl⟩
    rw [same, second, Option.some.injEq] at first
    rw [first, recorded, Option.some.injEq] at recorded'
    exact recorded'

end Store

/-- The indices of every reachable store are a function of its records. -/
theorem Reachable.indicesExact (h : Reachable s) : s.IndicesExact :=
  h.keeps.indices_exact h.sound

/-- After the first send, one transfer waits, and its fee row is there. -/
theorem indicesExact_after_firstSend :
    ∃ s : Store, Reachable s ∧ Chain.firstTransfer ∈ s.waiting ∧
      s.get? (Store.feeCell Chain.firstTransfer).key = some [0x01] ∧ s.IndicesExact := by
  have reached : Reachable (Chain.firstSend.run Chain.plainStore).2 :=
    .call _ (.founded Chain.founded_plainStore)
  have exact_indices := reached.indicesExact
  obtain ⟨_, _, _, _, _, _, keeps⟩ := Chain.run_firstSend
  have waits : Chain.firstTransfer ∈ (Chain.firstSend.run Chain.plainStore).2.waiting :=
    (Store.mem_waiting keeps).mpr ⟨Book.transfer_accept.mpr (.inl ⟨rfl, rfl⟩), rfl⟩
  refine ⟨_, reached, waits, ?_, exact_indices⟩
  exact (exact_indices.fee_rows _ _ (Cell.head?_key _)).mpr ⟨rfl, _, waits, rfl⟩

end BridgePool
