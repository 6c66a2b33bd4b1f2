import BridgePool.Proofs.Store.Book

/-!
# Stores that keep a book

`s.Keeps b` says that the store `s` is legible and that its book is `b`. Every row is then the one
that the book has for its cell (`Store.Keeps.get?_key`), and what a store keeps determines it
(`Store.Keeps.eq_iff`), so a result can be stated as the book that is kept afterwards. Reading gives
the entries of the book, and writing changes them.
-/

namespace BridgePool

/-- The row that a book has for a cell. -/
noncomputable def Book.row (b : Book) : Cell → Option Bytes
  | .transfer id => (b.transfer id).map Codec.bytes
  | .fee contract amount id =>
    open Classical in
    if (⟨contract, amount, id⟩ : Position) ∈ b.listed then some [0x01] else none
  | .batch nonce => (b.batch nonce).map Codec.bytes
  | .nextId => b.nextId.map Cell.word
  | .lastNonce => b.lastNonce.map Cell.word
  | .openBatch contract => (b.openNonce contract).map Cell.word
  | .locked denom => (b.locked denom).map Codec.bytes
  | .config => b.config.map Codec.bytes
  | .proposal => b.proposal.map Codec.bytes
  | .observedHeight => b.height.map Codec.bytes
  | .release => b.release.map Codec.bytes

/-- Books that list the same at a position have the same fee row there. -/
theorem Book.row_fee_congr {b b' : Book} {contract : RawAddress} {amount : TokenAmount} {id : UInt64}
    (same : (⟨contract, amount, id⟩ : Position) ∈ b'.listed ↔
      (⟨contract, amount, id⟩ : Position) ∈ b.listed) :
    b'.row (.fee contract amount id) = b.row (.fee contract amount id) := by
  by_cases listed : (⟨contract, amount, id⟩ : Position) ∈ b.listed
  · rw [row, row, if_pos listed, if_pos (same.mpr listed)]
  · rw [row, row, if_neg listed, if_neg (mt same.mp listed)]

namespace Store

/-- The store is legible and says what is in the book. -/
structure Keeps (s : Store) (b : Book) : Prop where
  legible : s.Legible
  book_eq : s.book = b

theorem Legible.keeps {s : Store} (h : s.Legible) : s.Keeps s.book :=
  ⟨h, rfl⟩

/-! ## A store is determined by its book -/

section

variable {s s' : Store}

/-- A row that was written as a value is the value's. -/
theorem get?_eq_map_value? {α : Type} [Codec α] {depth : Nat} [LawfulCodec α depth] {c : Cell}
    (written : ∀ row, s.get? c.key = some row → ∃ a : α, row = Codec.bytes a) :
    s.get? c.key = (s.value? α c).map Codec.bytes := by
  rw [value?]
  cases found : s.get? c.key with
  | none => rfl
  | some row =>
      obtain ⟨a, rfl⟩ := written row found
      rw [Option.bind_some, Codec.ofBytes?_bytes, Option.map_some]

/-- A row that was written as a word is the word's. -/
theorem get?_eq_map_wordOf? {c : Cell}
    (written : ∀ row, s.get? c.key = some row → ∃ n, row = Cell.word n) :
    s.get? c.key = (s.wordOf? c).map Cell.word := by
  rw [wordOf?]
  cases found : s.get? c.key with
  | none => rfl
  | some row =>
      obtain ⟨n, rfl⟩ := written row found
      rw [Option.bind_some, Cell.word?_word, Except.toOption, Option.map_some]

/-- The row of every cell is the one that the book has for it. -/
theorem Legible.get?_key (h : s.Legible) (c : Cell) : s.get? c.key = s.book.row c := by
  cases c with
  | transfer id =>
      apply get?_eq_map_value?
      intro row found
      cases h.admits found with
      | transfer t => exact ⟨t, rfl⟩
  | fee contract amount id =>
      have listed : (⟨contract, amount, id⟩ : Position) ∈ s.book.listed ↔
          (s.get? (Cell.fee contract amount id).key).isSome := Iff.rfl
      rw [Book.row, listed]
      cases found : s.get? (Cell.fee contract amount id).key with
      | none => simp
      | some row =>
          cases h.admits found with
          | fee => simp
  | batch nonce =>
      apply get?_eq_map_value?
      intro row found
      cases h.admits found with
      | batch b => exact ⟨b, rfl⟩
  | nextId =>
      apply get?_eq_map_wordOf?
      intro row found
      cases h.admits found with
      | nextId n => exact ⟨n, rfl⟩
  | lastNonce =>
      apply get?_eq_map_wordOf?
      intro row found
      cases h.admits found with
      | lastNonce n => exact ⟨n, rfl⟩
  | openBatch contract =>
      apply get?_eq_map_wordOf?
      intro row found
      cases h.admits found with
      | openBatch n => exact ⟨n, rfl⟩
  | locked denom =>
      apply get?_eq_map_value?
      intro row found
      cases h.admits found with
      | locked amount => exact ⟨amount, rfl⟩
  | config =>
      apply get?_eq_map_value?
      intro row found
      cases h.admits found with
      | config c => exact ⟨c, rfl⟩
  | proposal =>
      apply get?_eq_map_value?
      intro row found
      cases h.admits found with
      | proposal p => exact ⟨p, rfl⟩
  | observedHeight =>
      apply get?_eq_map_value?
      intro row found
      cases h.admits found with
      | observedHeight height => exact ⟨height, rfl⟩
  | release =>
      apply get?_eq_map_value?
      intro row found
      cases h.admits found with
      | release r => exact ⟨r, rfl⟩

/-- The rows of a legible store are those of every legible store with the same book. -/
theorem Legible.get?_of_book (h : s.Legible) (h' : s'.Legible) (same : s.book = s'.book)
    {key row : Bytes} (found : s.get? key = some row) : s'.get? key = some row := by
  obtain ⟨c, rfl, _⟩ := h key row found
  rw [h'.get?_key, ← same, ← h.get?_key, found]

/-- A legible store is determined by its book. -/
theorem Legible.ext_book (h : s.Legible) (h' : s'.Legible) (same : s.book = s'.book) : s = s' := by
  apply ext_get?
  intro key
  cases found : s.get? key with
  | some row => exact (h.get?_of_book h' same found).symm
  | none =>
      cases found' : s'.get? key with
      | none => rfl
      | some row =>
          rw [h'.get?_of_book h same.symm found'] at found
          cases found

end

namespace Keeps

variable {s s' : Store} {b : Book}

theorem eq_iff (h : s.Keeps b) : s' = s ↔ s'.Keeps b := by
  constructor
  · rintro rfl
    exact h
  · intro h'
    exact h'.legible.ext_book h.legible (h'.book_eq.trans h.book_eq.symm)

/-! ## Reading -/

theorem transfer? (h : s.Keeps b) (id : UInt64) : s.transfer? id = .ok (b.transfer id) :=
  h.book_eq ▸ h.legible.transfer? id

theorem batch? (h : s.Keeps b) (nonce : UInt64) : s.batch? nonce = .ok (b.batch nonce) :=
  h.book_eq ▸ h.legible.batch? nonce

theorem openNonce? (h : s.Keeps b) (contract : Address) :
    s.openNonce? contract = .ok (b.openNonce contract.raw) :=
  h.book_eq ▸ h.legible.openNonce? contract

theorem nextId (h : s.Keeps b) : s.nextId = .ok (b.nextId.getD 1) :=
  h.book_eq ▸ h.legible.nextId

theorem lastNonce (h : s.Keeps b) : s.lastNonce = .ok (b.lastNonce.getD 0) :=
  h.book_eq ▸ h.legible.lastNonce

theorem locked (h : s.Keeps b) (denom : String) :
    s.locked denom = .ok ((b.locked denom).getD Amount.zero) :=
  h.book_eq ▸ h.legible.locked denom

theorem config_eq_ok (h : s.Keeps b) {c : Config} : s.config = .ok c ↔ b.config = some c := by
  rw [h.legible.config, h.book_eq]
  cases b.config <;> simp

theorem proposal? (h : s.Keeps b) : s.proposal? = .ok b.proposal :=
  h.book_eq ▸ h.legible.proposal?

theorem recordedHeight? (h : s.Keeps b) : s.recordedHeight? = .ok b.height :=
  h.book_eq ▸ h.legible.recordedHeight?

theorem observedHeight (h : s.Keeps b) : s.observedHeight = .ok (b.height.getD 0) :=
  h.book_eq ▸ h.legible.observedHeight

/-! ## Rows -/

theorem get?_key (h : s.Keeps b) (c : Cell) : s.get? c.key = b.row c :=
  h.book_eq ▸ h.legible.get?_key c

/-- A position is listed exactly when it has a row. -/
theorem mem_listed (h : s.Keeps b) {p : Position} :
    p ∈ b.listed ↔ (s.get? p.cell.key).isSome := by
  rw [← h.book_eq]
  rfl

theorem get?_transfer (h : s.Keeps b) (id : UInt64) :
    s.get? (Cell.transfer id).key = (b.transfer id).map Codec.bytes :=
  h.get?_key (.transfer id)

theorem get?_locked (h : s.Keeps b) (denom : String) :
    s.get? (Cell.locked denom).key = (b.locked denom).map Codec.bytes :=
  h.get?_key (.locked denom)

theorem get?_openBatch (h : s.Keeps b) (contract : RawAddress) :
    s.get? (Cell.openBatch contract).key = (b.openNonce contract).map Cell.word :=
  h.get?_key (.openBatch contract)

/-- Rows that two books share are the same in their stores. -/
theorem get?_eq_of_row {b' : Book} (h : s.Keeps b) (h' : s'.Keeps b') {cells : List Cell}
    (same : ∀ c ∉ cells, b'.row c = b.row c) {key : Bytes} (other : key ∉ cells.map Cell.key) :
    s'.get? key = s.get? key := by
  by_cases cell : ∃ c : Cell, c.key = key
  · obtain ⟨c, rfl⟩ := cell
    rw [h.get?_key, h'.get?_key]
    exact same c fun mem => other (List.mem_map_of_mem mem)
  -- a key that is no cell's has no row in either store
  · have no_row {s : Store} (legible : s.Legible) : s.get? key = none := by
      rw [Option.eq_none_iff_forall_ne_some]
      intro row found
      obtain ⟨c, own, _⟩ := legible key row found
      exact cell ⟨c, own⟩
    rw [no_row h.legible, no_row h'.legible]

/-! ## Writing -/

theorem saveTransfer (h : s.Keeps b) (t : Transfer) :
    (s.saveTransfer t).Keeps
      { b with transfer := Function.update b.transfer t.id (some t) } :=
  ⟨h.legible.insert (.transfer t), h.book_eq ▸ book_saveTransfer s t⟩

theorem removeTransfer (h : s.Keeps b) (id : UInt64) :
    (s.removeTransfer id).Keeps { b with transfer := Function.update b.transfer id none } :=
  ⟨h.legible.clear _, h.book_eq ▸ book_removeTransfer s id⟩

theorem addFeeRow (h : s.Keeps b) (t : Transfer) :
    (s.addFeeRow t).Keeps { b with listed := Insert.insert t.position b.listed } :=
  ⟨h.legible.insert .fee, h.book_eq ▸ book_addFeeRow s t⟩

theorem removeFeeRow (h : s.Keeps b) (t : Transfer) :
    (s.removeFeeRow t).Keeps { b with listed := b.listed \ {t.position} } :=
  ⟨h.legible.clear _, h.book_eq ▸ book_removeFeeRow s t⟩

theorem saveBatch (h : s.Keeps b) (batch : Batch) :
    (s.saveBatch batch).Keeps
      { b with batch := Function.update b.batch batch.nonce (some batch) } :=
  ⟨h.legible.insert (.batch batch), h.book_eq ▸ book_saveBatch s batch⟩

theorem saveOpenNonce (h : s.Keeps b) (contract : Address) (nonce : UInt64) :
    (s.saveOpenNonce contract nonce).Keeps
      { b with openNonce := Function.update b.openNonce contract.raw (some nonce) } :=
  ⟨h.legible.insert (.openBatch nonce), h.book_eq ▸ book_saveOpenNonce s contract nonce⟩

theorem clearOpenNonce (h : s.Keeps b) (contract : Address) :
    (s.clearOpenNonce contract).Keeps
      { b with openNonce := Function.update b.openNonce contract.raw none } :=
  ⟨h.legible.clear _, h.book_eq ▸ book_clearOpenNonce s contract⟩

theorem saveNextId (h : s.Keeps b) (id : UInt64) :
    (s.saveWord .nextId id).Keeps { b with nextId := some id } :=
  ⟨h.legible.insert (.nextId id), h.book_eq ▸ book_saveNextId s id⟩

theorem saveLastNonce (h : s.Keeps b) (nonce : UInt64) :
    (s.saveWord .lastNonce nonce).Keeps { b with lastNonce := some nonce } :=
  ⟨h.legible.insert (.lastNonce nonce), h.book_eq ▸ book_saveLastNonce s nonce⟩

theorem saveLocked (h : s.Keeps b) (denom : String) (amount : CoinAmount) :
    (s.save (.locked denom) amount).Keeps
      { b with locked := Function.update b.locked denom (some amount) } :=
  ⟨h.legible.insert (.locked amount), h.book_eq ▸ book_saveLocked s denom amount⟩

theorem clearLocked (h : s.Keeps b) (denom : String) :
    (s.clear (.locked denom)).Keeps
      { b with locked := Function.update b.locked denom none } :=
  ⟨h.legible.clear _, h.book_eq ▸ book_clearLocked s denom⟩

theorem saveConfig (h : s.Keeps b) (c : Config) : (s.saveConfig c).Keeps { b with config := some c } :=
  ⟨h.legible.insert (.config c), h.book_eq ▸ book_saveConfig s c⟩

theorem saveProposal (h : s.Keeps b) (p : Proposal) :
    (s.save .proposal p).Keeps { b with proposal := some p } :=
  ⟨h.legible.insert (.proposal p), h.book_eq ▸ book_saveProposal s p⟩

theorem clearProposal (h : s.Keeps b) : (s.clear .proposal).Keeps { b with proposal := none } :=
  ⟨h.legible.clear _, h.book_eq ▸ book_clearProposal s⟩

theorem saveHeight (h : s.Keeps b) (height : UInt64) :
    (s.saveHeight height).Keeps { b with height := some height } :=
  ⟨h.legible.insert (.observedHeight height), h.book_eq ▸ book_saveHeight s height⟩

theorem saveRelease (h : s.Keeps b) (r : Release) :
    (s.save .release r).Keeps { b with release := some r } :=
  ⟨h.legible.insert (.release r), h.book_eq ▸ book_saveRelease s r⟩

end Keeps

end Store

end BridgePool
