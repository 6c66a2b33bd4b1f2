import BridgePool.Bridge.Execute
import BridgePool.Proofs.Config
import BridgePool.Proofs.Store.Book
import BridgePool.Store.Records

/-!
# What can be done to a book

A successful call does a few deeds, each of which changes the book in one way. `Deed` names what
was done, and `Move b d b'` says when a deed can be done to `b` and what book it leaves.

The ledger of a book is a function (`Holdings`), with an equation for every change of what is held
of a denom (`Holdings.held_spend`, `Holdings.held_spendAll`).
-/

namespace BridgePool

/-! ## The ledger -/

/-- What a transfer is worth in a denom: nothing in any denom but its own. -/
def Transfer.share (denom : String) (t : Transfer) : Nat :=
  if t.token.denom = denom then t.worth else 0

/-- The coin that the escrow holds for a transfer; what no coin can hold is no amount. -/
def Transfer.coin (t : Transfer) : Coin :=
  ⟨t.token.denom, (Amount.ofNat? 128 t.worth).getD Amount.zero⟩

namespace Holdings

/-- What is held of a denom. -/
def held (l : Holdings) (denom : String) : Nat :=
  ((l denom).getD Amount.zero).val

/-- The ledger with some taken from what is held of a denom; no row is kept for nothing. -/
def spend (l : Holdings) (denom : String) (n : Nat) : Holdings :=
  Function.update l denom
    ((Amount.ofNat? 128 (l.held denom - n)).filter fun left => left ≠ Amount.zero)

/-- The ledger after it paid for transfers, one after the other. -/
def spendAll (l : Holdings) (ts : List Transfer) : Holdings :=
  ts.foldl (fun l t => l.spend t.token.denom t.worth) l

/-- No row holds nothing. -/
def NoEmptyRow (l : Holdings) : Prop :=
  ∀ denom amount, l denom = some amount → amount.val ≠ 0

variable {l : Holdings}

theorem held_update (l : Holdings) (denom other : String) (row : Option CoinAmount) :
    held (Function.update l denom row) other =
      if other = denom then (row.getD Amount.zero).val else l.held other := by
  rw [held, Function.update_apply]
  split <;> rfl

theorem held_lt (l : Holdings) (denom : String) : l.held denom < Nat.pow 2 128 :=
  ((l denom).getD Amount.zero).isLt

theorem held_spend (l : Holdings) (denom other : String) (n : Nat) :
    (l.spend denom n).held other = if other = denom then l.held denom - n else l.held other := by
  have room : l.held denom - n < Nat.pow 2 128 :=
    Nat.lt_of_le_of_lt (Nat.sub_le _ _) (l.held_lt denom)
  rw [spend, held_update, Amount.ofNat?, dif_pos room, Option.filter]
  by_cases nothing : l.held denom - n = 0
  · simp [nothing, Amount.ext_iff]
  · simp [nothing, Amount.ext_iff]

theorem NoEmptyRow.spend (h : l.NoEmptyRow) (denom : String) (n : Nat) :
    (l.spend denom n).NoEmptyRow := by
  intro other amount row
  rw [Holdings.spend, Function.update_apply] at row
  split at row
  · obtain ⟨_, nonzero⟩ := Option.filter_eq_some_iff.mp row
    simpa [Amount.ext_iff] using nonzero
  · exact h other amount row

theorem spendAll_cons (l : Holdings) (t : Transfer) (ts : List Transfer) :
    l.spendAll (t :: ts) = (l.spend t.token.denom t.worth).spendAll ts := by
  rw [spendAll, spendAll, List.foldl_cons]

theorem NoEmptyRow.spendAll (h : l.NoEmptyRow) (ts : List Transfer) :
    (l.spendAll ts).NoEmptyRow := by
  induction ts generalizing l with
  | nil => exact h
  | cons t ts ih =>
      rw [spendAll_cons]
      exact ih (h.spend _ _)

theorem held_spendAll (l : Holdings) (ts : List Transfer) (denom : String) :
    (l.spendAll ts).held denom = l.held denom - (ts.map (Transfer.share denom)).sum := by
  induction ts generalizing l with
  | nil => simp [spendAll]
  | cons t ts ih =>
      rw [spendAll_cons, ih, held_spend, List.map_cons, List.sum_cons, Transfer.share]
      by_cases same : t.token.denom = denom
      · rw [if_pos same.symm, if_pos same, same]
        omega
      · rw [if_neg (Ne.symm same), if_neg same]
        omega

end Holdings

/-! ## Positions and records -/

/-- Listing order: contracts ascending by bytes, then fees descending, then ids descending. -/
def Position.before (p q : Position) : Prop :=
  p.contract.val < q.contract.val ∨
    p.contract = q.contract ∧
      (q.fee.val < p.fee.val ∨ q.fee.val = p.fee.val ∧ q.id < p.id)

namespace Position

theorem before.irrefl {p : Position} : ¬ p.before p := by
  rintro (less | ⟨_, less | ⟨_, less⟩⟩)
  · exact List.lt_irrefl _ less
  · exact Nat.lt_irrefl _ less
  · exact UInt64.lt_irrefl _ less

/-- Fee rows are kept in the order opposite to that of a listing. -/
theorem key_lt_iff {p q : Position} (same : p.contract = q.contract) :
    q.cell.key < p.cell.key ↔ p.before q := by
  rw [cell, cell, Cell.fee_key_lt_iff, before, same]

theorem before.asymm {p q : Position} (same : p.contract = q.contract) (h : p.before q) :
    ¬ q.before p := by
  rw [← key_lt_iff same] at h
  rw [← key_lt_iff same.symm]
  exact List.lt_asymm h

end Position

namespace Book

variable (b : Book)

/-- The id that the next transfer gets. -/
def next : UInt64 :=
  b.nextId.getD 1

/-- The nonce of the last batch. -/
def last : UInt64 :=
  b.lastNonce.getD 0

/-- The positions of one contract, in listing order. -/
def Lists (contract : RawAddress) (ps : List Position) : Prop :=
  ps.Pairwise Position.before ∧ ∀ p, p ∈ ps ↔ p ∈ b.listed ∧ p.contract = contract

/-- The records, with those of the given ids moved to a state. -/
def moved (ids : List UInt64) (state : TransferState) (id : UInt64) : Option Transfer :=
  if id ∈ ids then (b.transfer id).map fun t => { t with state } else b.transfer id

/-- The records without those of the given ids. -/
def without (ids : List UInt64) (id : UInt64) : Option Transfer :=
  if id ∈ ids then none else b.transfer id

/-- The positions of the records with the given ids. -/
def places (ids : List UInt64) : Set Position :=
  {p | p.id ∈ ids ∧ ∃ t, b.transfer p.id = some t ∧ t.position = p}

section Records

variable {b : Book} {ids : List UInt64} {ts : List Transfer}
  (kept : ids.map b.transfer = ts.map some)

include kept in
theorem exists_id_of_mem {t : Transfer} (mem : t ∈ ts) : ∃ id ∈ ids, b.transfer id = some t := by
  have found : some t ∈ ids.map b.transfer := kept ▸ List.mem_map_of_mem mem
  exact List.mem_map.mp found

include kept in
theorem exists_record_of_mem {id : UInt64} (listed : id ∈ ids) :
    ∃ t ∈ ts, b.transfer id = some t := by
  have found : b.transfer id ∈ ts.map some := kept ▸ List.mem_map_of_mem listed
  obtain ⟨t, mem, same⟩ := List.mem_map.mp found
  exact ⟨t, mem, same.symm⟩

end Records

/-! ## Changes of a book -/

/-- The book with waiting transfers moved into a batch. -/
def carry (ids : List UInt64) (nonce : UInt64) : Book :=
  { b with transfer := b.moved ids (.inBatch nonce), listed := b.listed \ b.places ids }

/-- The book with carried transfers back in the pool. -/
def giveBack (ids : List UInt64) : Book :=
  { b with transfer := b.moved ids .unbatched, listed := b.listed ∪ b.places ids }

/-- The book without carried transfers that the ledger paid for. -/
def drop (ids : List UInt64) (ts : List Transfer) : Book :=
  { b with transfer := b.without ids, locked := b.locked.spendAll ts }

/-- The book with a new transfer that waits, and its worth in the ledger. -/
def accept (t : Transfer) (sum : CoinAmount) : Book :=
  { b with
    transfer := Function.update b.transfer t.id (some t)
    listed := insert t.position b.listed
    nextId := some (t.id + 1)
    locked := Function.update b.locked t.token.denom (some sum) }

/-- The book without a transfer that waited. -/
def refund (t : Transfer) : Book :=
  { b with
    transfer := Function.update b.transfer t.id none
    listed := b.listed \ {t.position}
    locked := b.locked.spend t.token.denom t.worth }

/-- The book with a new batch and its transfers in it. -/
def gather (batch : Batch) : Book :=
  { b.carry batch.ids batch.nonce with
    batch := Function.update b.batch batch.nonce (some batch)
    openNonce := Function.update b.openNonce batch.contract.raw (some batch.nonce)
    lastNonce := some batch.nonce }

/-- The book with a batch closed and its transfers back in the pool. -/
def disband (batch : Batch) (state : BatchState) : Book :=
  { b.giveBack batch.ids with
    batch := Function.update b.batch batch.nonce (some { batch with state })
    openNonce := Function.update b.openNonce batch.contract.raw none }

/-- The book with a batch executed, and the ledger after it paid for its transfers. -/
def settle (batch : Batch) (ts : List Transfer) : Book :=
  { b.drop batch.ids ts with
    batch := Function.update b.batch batch.nonce (some { batch with state := .executed })
    openNonce := Function.update b.openNonce batch.contract.raw none }

/-- The first positions of a contract's listing make this batch. -/
structure Gathers (contract : RawAddress) (count : Nat) (batch : Batch) : Prop where
  free : b.openNonce contract = none
  ids : ∃ all, b.Lists contract all ∧ batch.ids = (all.take count).map Position.id
  spelled : ∃ lead, batch.ids.head?.bind b.transfer = some lead ∧
    batch.contract = lead.token.contract
  own_nonce : batch.nonce = b.last + 1
  room : b.last.toNat + 1 < UInt64.size
  opened : batch.state = .open

end Book

/-! ## Deeds -/

/-- What a successful call does. -/
inductive Deed where
  /-- A transfer is taken into the pool. -/
  | accept (t : Transfer)
  /-- A waiting transfer is paid back. -/
  | refund (t : Transfer)
  /-- A batch is cut from the pool. -/
  | gather (batch : Batch)
  /-- An open batch is closed, and its transfers go back to the pool. -/
  | disband (batch : Batch) (state : BatchState)
  /-- An open batch is closed as executed, and its transfers are burned. -/
  | settle (batch : Batch) (ts : List Transfer)
  | configure (c : Config)
  | propose (p : Option Proposal)
  | observe (height : UInt64)
  | mark (r : Release)

/-- When a deed can be done to a book, and the book that it leaves. -/
inductive Move (b : Book) : Deed → Book → Prop
  | accept {t : Transfer} {sum : CoinAmount}
      (own_id : t.id = b.next) (room : t.id.toNat + 1 < UInt64.size)
      (waits : t.state = .unbatched) (spelled : t.fee.contract = t.token.contract)
      (positive : t.token.amount.val ≠ 0)
      (credited : sum.val = b.locked.held t.token.denom + t.worth) :
      Move b (.accept t) (b.accept t sum)
  | refund {t : Transfer}
      (kept : b.transfer t.id = some t) (waits : t.state = .unbatched) :
      Move b (.refund t) (b.refund t)
  | gather {batch : Batch} {contract : RawAddress} {c : Config}
      (config : b.config = some c) (active : c.paused = false)
      (observed : b.height.getD 0 ≠ 0)
      (gathers : b.Gathers contract c.batchSize.toNat batch)
      (timeout : batch.timeout = Bridge.saturatingAdd (b.height.getD 0) c.timeoutBlocks) :
      Move b (.gather batch) (b.gather batch)
  | disband {batch : Batch} {state : BatchState}
      (recorded : b.batch batch.nonce = some batch) (opened : batch.state = .open)
      (ends : state = .cancelled ∨ state = .timedOut) :
      Move b (.disband batch state) (b.disband batch state)
  | settle {batch : Batch} {ts : List Transfer}
      (recorded : b.batch batch.nonce = some batch) (opened : batch.state = .open)
      (kept : batch.ids.map b.transfer = ts.map some) :
      Move b (.settle batch ts) (b.settle batch ts)
  | configure {c : Config} (bounds : c.InBounds) : Move b (.configure c) { b with config := some c }
  | propose {p : Option Proposal} : Move b (.propose p) { b with proposal := p }
  | observe {height : UInt64} (rises : b.height.getD 0 ≤ height) :
      Move b (.observe height) { b with height := some height }
  | mark {r : Release} : Move b (.mark r) { b with release := some r }

/-- Deeds done one after the other. -/
inductive Moves : Book → List Deed → Book → Prop
  | done {b : Book} : Moves b [] b
  | next {b b' b'' : Book} {d : Deed} {ds : List Deed} :
      Move b d b' → Moves b' ds b'' → Moves b (d :: ds) b''

end BridgePool
