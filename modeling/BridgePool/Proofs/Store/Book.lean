import BridgePool.Proofs.Codec
import BridgePool.Proofs.Store.Keys
import BridgePool.Store.Rows
import Mathlib.Data.Set.Insert
import Mathlib.Logic.Function.Basic

/-!
# The book that a store keeps

A store is bytes; its `Book` is what the bytes say: records by id and by nonce, the positions
that the fee rows name, counters, the ledger and the single records. A store is `Legible` when
every row belongs to a cell and is what that cell is written as.

* `Store.Legible.transfer?` and its companions — a legible store reads as its book says;
* `Store.book_saveTransfer` and its companions — each write changes one entry of the book.
-/

namespace BridgePool

/-- The place of a waiting transfer in the listings. -/
@[ext] structure Position where
  contract : RawAddress
  fee : TokenAmount
  id : UInt64
  deriving DecidableEq

namespace Position

/-- The fee row that stands for the position. -/
def cell (p : Position) : Cell :=
  .fee p.contract p.fee p.id

@[simp] theorem cell_inj {p q : Position} : p.cell = q.cell ↔ p = q := by
  simp [cell, Position.ext_iff]

end Position

/-- Where a transfer is listed while it waits. -/
def Transfer.position (t : Transfer) : Position :=
  ⟨t.fee.contract.raw, t.fee.amount, t.id⟩

/-- The rows of a ledger, denom by denom. -/
abbrev Holdings := String → Option CoinAmount

/-- What a store says. -/
@[ext] structure Book where
  transfer : UInt64 → Option Transfer
  listed : Set Position
  batch : UInt64 → Option Batch
  nextId : Option UInt64
  lastNonce : Option UInt64
  openNonce : RawAddress → Option UInt64
  locked : Holdings
  config : Option Config
  proposal : Option Proposal
  height : Option UInt64
  release : Option Release

namespace Store

/-- The value in the row of a cell. -/
def value? (α : Type) [Codec α] (s : Store) (c : Cell) : Option α :=
  (s.get? c.key).bind Codec.ofBytes?

/-- The word in the row of a cell. -/
def wordOf? (s : Store) (c : Cell) : Option UInt64 :=
  (s.get? c.key).bind fun row => (Cell.word? row).toOption

/-- What the rows of a store say. -/
def book (s : Store) : Book where
  transfer id := s.value? Transfer (.transfer id)
  listed := {p | (s.get? p.cell.key).isSome}
  batch nonce := s.value? Batch (.batch nonce)
  nextId := s.wordOf? .nextId
  lastNonce := s.wordOf? .lastNonce
  openNonce contract := s.wordOf? (.openBatch contract)
  locked denom := s.value? CoinAmount (.locked denom)
  config := s.value? Config .config
  proposal := s.value? Proposal .proposal
  height := s.value? UInt64 .observedHeight
  release := s.value? Release .release

end Store

/-- What the row of a cell may be: the written form of a value of its kind. A record names its own
id or nonce. -/
inductive Cell.Admits : Cell → Bytes → Prop
  | transfer (t : Transfer) : Admits (.transfer t.id) (Codec.bytes t)
  | fee {contract amount id} : Admits (.fee contract amount id) [0x01]
  | batch (b : Batch) : Admits (.batch b.nonce) (Codec.bytes b)
  | nextId (n : UInt64) : Admits .nextId (Cell.word n)
  | lastNonce (n : UInt64) : Admits .lastNonce (Cell.word n)
  | openBatch {contract} (n : UInt64) : Admits (.openBatch contract) (Cell.word n)
  | locked {denom} (amount : CoinAmount) : Admits (.locked denom) (Codec.bytes amount)
  | config (c : Config) : Admits .config (Codec.bytes c)
  | proposal (p : Proposal) : Admits .proposal (Codec.bytes p)
  | observedHeight (height : UInt64) : Admits .observedHeight (Codec.bytes height)
  | release (r : Release) : Admits .release (Codec.bytes r)

namespace Store

/-- Every row belongs to a cell, and is what that cell is written as. -/
def Legible (s : Store) : Prop :=
  ∀ key row, s.get? key = some row → ∃ c : Cell, c.key = key ∧ c.Admits row

theorem legible_empty : empty.Legible := by
  intro key row found
  rw [get?_empty] at found
  cases found

namespace Legible

variable {s : Store}

theorem admits (h : s.Legible) {c : Cell} {row : Bytes} (found : s.get? c.key = some row) :
    c.Admits row := by
  obtain ⟨d, same, admits⟩ := h _ _ found
  rwa [Cell.key_injective same] at admits

theorem insert (h : s.Legible) {c : Cell} {row : Bytes} (fits : c.Admits row) :
    (s.insert c.key row).Legible := by
  intro key other found
  rw [get?_insert] at found
  split at found
  next same =>
    cases found
    exact ⟨c, same.symm, fits⟩
  next => exact h key other found

theorem clear (h : s.Legible) (c : Cell) : (s.clear c).Legible := by
  intro key row found
  rw [Store.clear, get?_erase] at found
  split at found
  · cases found
  · exact h key row found

/-! ## Reading -/

theorem load? {α : Type} [Codec α] {c : Cell}
    (reads : ∀ row, s.get? c.key = some row → ∃ a : α, Codec.ofBytes? row = some a) :
    s.load? c = .ok (s.value? α c) := by
  rw [Store.load?, value?]
  cases found : s.get? c.key with
  | none => rfl
  | some row =>
      obtain ⟨a, read⟩ := reads row found
      simp [read]

theorem word? {c : Cell} (reads : ∀ row, s.get? c.key = some row → ∃ n, row = Cell.word n) :
    s.word? c = .ok (s.wordOf? c) := by
  rw [Store.word?, wordOf?]
  cases found : s.get? c.key with
  | none => rfl
  | some row =>
      obtain ⟨n, rfl⟩ := reads row found
      simp [Cell.word?_word, Except.map, Except.toOption]

theorem transfer? (h : s.Legible) (id : UInt64) : s.transfer? id = .ok (s.book.transfer id) :=
  load? fun row found => by
    cases h.admits found with
    | transfer t => exact ⟨t, Codec.ofBytes?_bytes t⟩

theorem batch? (h : s.Legible) (nonce : UInt64) : s.batch? nonce = .ok (s.book.batch nonce) :=
  load? fun row found => by
    cases h.admits found with
    | batch b => exact ⟨b, Codec.ofBytes?_bytes b⟩

theorem openNonce? (h : s.Legible) (contract : Address) :
    s.openNonce? contract = .ok (s.book.openNonce contract.raw) :=
  word? fun row found => by
    cases h.admits found with
    | openBatch n => exact ⟨n, rfl⟩

theorem nextId (h : s.Legible) : s.nextId = .ok (s.book.nextId.getD 1) := by
  rw [Store.nextId, word? fun row found => by
    cases h.admits found with
    | nextId n => exact ⟨n, rfl⟩]
  rfl

theorem lastNonce (h : s.Legible) : s.lastNonce = .ok (s.book.lastNonce.getD 0) := by
  rw [Store.lastNonce, word? fun row found => by
    cases h.admits found with
    | lastNonce n => exact ⟨n, rfl⟩]
  rfl

theorem locked (h : s.Legible) (denom : String) :
    s.locked denom = .ok ((s.book.locked denom).getD Amount.zero) := by
  rw [Store.locked, load? fun row found => by
    cases h.admits found with
    | locked amount => exact ⟨amount, Codec.ofBytes?_bytes amount⟩]
  rfl

theorem config (h : s.Legible) :
    s.config = match s.book.config with
      | some c => .ok c
      | none => .error .missingConfig := by
  rw [Store.config, load? (α := Config) fun row found => by
    cases h.admits found with
    | config c => exact ⟨c, Codec.ofBytes?_bytes c⟩]
  cases read : s.book.config <;> simp only [book] at read <;> rw [read] <;> rfl

theorem proposal? (h : s.Legible) : s.proposal? = .ok s.book.proposal :=
  load? fun row found => by
    cases h.admits found with
    | proposal p => exact ⟨p, Codec.ofBytes?_bytes p⟩

theorem recordedHeight? (h : s.Legible) : s.recordedHeight? = .ok s.book.height :=
  load? fun row found => by
    cases h.admits found with
    | observedHeight height => exact ⟨height, Codec.ofBytes?_bytes height⟩

theorem observedHeight (h : s.Legible) : s.observedHeight = .ok (s.book.height.getD 0) := by
  rw [Store.observedHeight, h.recordedHeight?]
  rfl

/-! ## Rows behind the entries of the book -/

/-- A record of the book is kept under its own id, in its written form. -/
theorem get?_transfer (h : s.Legible) {id : UInt64} {t : Transfer}
    (kept : s.book.transfer id = some t) :
    t.id = id ∧ s.get? (Cell.transfer id).key = some (Codec.bytes t) := by
  obtain ⟨row, found, read⟩ := Option.bind_eq_some_iff.mp kept
  cases h.admits found with
  | transfer u =>
      rw [Codec.ofBytes?_bytes, Option.some.injEq] at read
      exact ⟨read ▸ rfl, read ▸ found⟩

theorem get?_batch (h : s.Legible) {nonce : UInt64} {b : Batch}
    (kept : s.book.batch nonce = some b) :
    b.nonce = nonce ∧ s.get? (Cell.batch nonce).key = some (Codec.bytes b) := by
  obtain ⟨row, found, read⟩ := Option.bind_eq_some_iff.mp kept
  cases h.admits found with
  | batch c =>
      rw [Codec.ofBytes?_bytes, Option.some.injEq] at read
      exact ⟨read ▸ rfl, read ▸ found⟩

end Legible

/-! ## Writing -/

section

variable {α : Type} [Codec α] (s : Store) (c d : Cell) (row : Bytes)

theorem get?_key_insert :
    (s.insert c.key row).get? d.key = if d = c then some row else s.get? d.key := by
  simp [get?_insert]

theorem get?_key_clear : (s.clear c).get? d.key = if d = c then none else s.get? d.key := by
  simp [clear, get?_erase]

theorem value?_insert :
    (s.insert c.key row).value? α d = if d = c then Codec.ofBytes? row else s.value? α d := by
  rw [value?, get?_key_insert]
  split <;> rfl

theorem value?_clear : (s.clear c).value? α d = if d = c then none else s.value? α d := by
  rw [value?, get?_key_clear]
  split <;> rfl

theorem wordOf?_insert :
    (s.insert c.key row).wordOf? d =
      if d = c then (Cell.word? row).toOption else s.wordOf? d := by
  rw [wordOf?, get?_key_insert]
  split <;> rfl

theorem wordOf?_clear : (s.clear c).wordOf? d = if d = c then none else s.wordOf? d := by
  rw [wordOf?, get?_key_clear]
  split <;> rfl

end

section

attribute [local simp] book save saveWord get?_key_insert get?_key_clear value?_insert
  value?_clear wordOf?_insert wordOf?_clear Cell.word?_word Except.toOption Position.cell
  Function.update_apply

variable (s : Store)

theorem book_saveTransfer (t : Transfer) :
    (s.saveTransfer t).book =
      { s.book with transfer := Function.update s.book.transfer t.id (some t) } := by
  ext1 <;> simp [saveTransfer, funext_iff]

theorem book_removeTransfer (id : UInt64) :
    (s.removeTransfer id).book =
      { s.book with transfer := Function.update s.book.transfer id none } := by
  ext1 <;> simp [removeTransfer, funext_iff]

theorem book_addFeeRow (t : Transfer) :
    (s.addFeeRow t).book = { s.book with listed := Insert.insert t.position s.book.listed } := by
  ext1 <;> simp [addFeeRow, feeCell, Set.ext_iff]
  intro p
  split
  next same => simp [Transfer.position, Position.ext_iff, same]
  next other => simp [Transfer.position, Position.ext_iff, other]

theorem book_removeFeeRow (t : Transfer) :
    (s.removeFeeRow t).book = { s.book with listed := s.book.listed \ {t.position} } := by
  ext1 <;> simp [removeFeeRow, feeCell, Set.ext_iff]
  intro p
  split
  next same => simp [Transfer.position, Position.ext_iff, same]
  next other => simp [Transfer.position, Position.ext_iff, other]

theorem book_saveBatch (b : Batch) :
    (s.saveBatch b).book =
      { s.book with batch := Function.update s.book.batch b.nonce (some b) } := by
  ext1 <;> simp [saveBatch, funext_iff]

theorem book_saveOpenNonce (contract : Address) (nonce : UInt64) :
    (s.saveOpenNonce contract nonce).book =
      { s.book with
        openNonce := Function.update s.book.openNonce contract.raw (some nonce) } := by
  ext1 <;> simp [saveOpenNonce, funext_iff]

theorem book_clearOpenNonce (contract : Address) :
    (s.clearOpenNonce contract).book =
      { s.book with openNonce := Function.update s.book.openNonce contract.raw none } := by
  ext1 <;> simp [clearOpenNonce, funext_iff]

theorem book_saveNextId (id : UInt64) :
    (s.saveWord .nextId id).book = { s.book with nextId := some id } := by
  ext1 <;> simp

theorem book_saveLastNonce (nonce : UInt64) :
    (s.saveWord .lastNonce nonce).book = { s.book with lastNonce := some nonce } := by
  ext1 <;> simp

theorem book_saveLocked (denom : String) (amount : CoinAmount) :
    (s.save (.locked denom) amount).book =
      { s.book with locked := Function.update s.book.locked denom (some amount) } := by
  ext1 <;> simp [funext_iff]

theorem book_clearLocked (denom : String) :
    (s.clear (.locked denom)).book =
      { s.book with locked := Function.update s.book.locked denom none } := by
  ext1 <;> simp [funext_iff]

theorem book_saveConfig (c : Config) :
    (s.saveConfig c).book = { s.book with config := some c } := by
  ext1 <;> simp [saveConfig]

theorem book_saveProposal (p : Proposal) :
    (s.save .proposal p).book = { s.book with proposal := some p } := by
  ext1 <;> simp

theorem book_clearProposal :
    (s.clear .proposal).book = { s.book with proposal := none } := by
  ext1 <;> simp

theorem book_saveHeight (height : UInt64) :
    (s.saveHeight height).book = { s.book with height := some height } := by
  ext1 <;> simp [saveHeight]

theorem book_saveRelease (r : Release) :
    (s.save .release r).book = { s.book with release := some r } := by
  ext1 <;> simp

end

end Store

end BridgePool
