import BridgePool.Proofs.Book.Worth

/-!
# Sound books

What holds of the book of every reachable store, in five parts:

* `Book.Recorded` — records name their own keys, ids and nonces come from the counters;
* `Book.Indexed` — the fee rows and the open nonces are functions of the records;
* `Book.Grouped` — which transfers are in which batches;
* `Book.Balanced` — the ledger holds what the transfers are worth;
* `Book.Configured` — there is a configuration within its bounds, and a height.

`Book.Sound` is all five of them. Only the first two matter to the making of a batch, so
`Book.Filed` is those two.
-/

namespace BridgePool

/-- A counter below the last word counts on. -/
theorem toNat_succ {n : UInt64} (room : n.toNat + 1 < UInt64.size) :
    (n + 1).toNat = n.toNat + 1 := by
  rw [UInt64.toNat_add, UInt64.toNat_one]
  exact Nat.mod_eq_of_lt room

/-- What an updated map holds is the new value or an old one under another key. -/
theorem update_eq_some {κ α : Type} [DecidableEq κ] {f : κ → Option α} {i j : κ} {a x : α} :
    Function.update f i (some a) j = some x ↔ j = i ∧ x = a ∨ j ≠ i ∧ f j = some x := by
  rw [Function.update_apply]
  split
  next same => simp [same, eq_comm]
  next other => simp [other]

theorem update_none_eq_some {κ α : Type} [DecidableEq κ] {f : κ → Option α} {i j : κ} {x : α} :
    Function.update f i none j = some x ↔ j ≠ i ∧ f j = some x := by
  rw [Function.update_apply]
  split
  next same => simp [same]
  next other => simp [other]

namespace Book

variable (b : Book)

/-- Records name their own keys, and their ids and nonces come from the counters. -/
structure Recorded : Prop where
  transfer_id : ∀ {id t}, b.transfer id = some t → t.id = id
  batch_nonce : ∀ {n batch}, b.batch n = some batch → batch.nonce = n
  spelled : ∀ {id t}, b.transfer id = some t → t.fee.contract = t.token.contract
  positive : ∀ {id t}, b.transfer id = some t → t.token.amount.val ≠ 0
  first_id : 1 ≤ b.next
  fresh : ∀ {id t}, b.transfer id = some t → 1 ≤ id ∧ id < b.next
  numbered : ∀ {n}, (b.batch n).isSome ↔ 1 ≤ n ∧ n ≤ b.last

/-- The fee rows name the waiting transfers, and the open nonces the open batches. -/
structure Indexed : Prop where
  listed_iff : ∀ {p}, p ∈ b.listed ↔
    ∃ t, b.transfer p.id = some t ∧ t.state = .unbatched ∧ t.position = p
  open_iff : ∀ {contract n}, b.openNonce contract = some n ↔
    ∃ batch, b.batch n = some batch ∧ batch.state = .open ∧ batch.contract.raw = contract

/-- The records and the indices of them are in order, whatever is grouped. -/
structure Filed : Prop extends b.Recorded, b.Indexed

/-- The records with these ids are in listing order. -/
def InOrder (ids : List UInt64) : Prop :=
  ids.Pairwise fun i j => ∀ t u, b.transfer i = some t → b.transfer j = some u →
    t.position.before u.position

/-- Which transfers are in which batches. -/
structure Grouped : Prop where
  carried_iff : ∀ {id t n}, b.transfer id = some t →
    (t.state = .inBatch n ↔
      ∃ batch, b.batch n = some batch ∧ batch.state = .open ∧ id ∈ batch.ids)
  sized : ∀ {n batch}, b.batch n = some batch →
    1 ≤ batch.ids.length ∧ batch.ids.length ≤ 1000 ∧ batch.ids.Nodup
  ids_fresh : ∀ {n batch id}, b.batch n = some batch → id ∈ batch.ids → 1 ≤ id ∧ id < b.next
  open_kept : ∀ {n batch id}, b.batch n = some batch → batch.state = .open → id ∈ batch.ids →
    ∃ t, b.transfer id = some t ∧ t.token.contract.raw = batch.contract.raw
  open_ordered : ∀ {n batch}, b.batch n = some batch → batch.state = .open →
    b.InOrder batch.ids
  executed_gone : ∀ {n batch id}, b.batch n = some batch → batch.state = .executed →
    id ∈ batch.ids → b.transfer id = none
  executed_once : ∀ {m n first second id}, b.batch m = some first → first.state = .executed →
    b.batch n = some second → second.state = .executed → id ∈ first.ids → id ∈ second.ids →
    m = n

/-- The ledger holds what the transfers are worth, and has no empty row. -/
structure Balanced : Prop where
  held_eq : ∀ denom, b.locked.held denom = b.worth denom
  no_empty_row : b.locked.NoEmptyRow

/-- There is a configuration within its bounds, and a height. -/
structure Configured : Prop where
  config_bounds : ∃ c, b.config = some c ∧ c.InBounds
  height_some : b.height.isSome

/-- What holds of the book of every reachable store. -/
structure Sound : Prop extends b.Recorded, b.Indexed, b.Grouped, b.Balanced, b.Configured

variable {b} {t : Transfer} {batch : Batch} {id n : UInt64}

/-! ## What the parts say together -/

theorem Sound.filed (h : b.Sound) : b.Filed :=
  ⟨h.toRecorded, h.toIndexed⟩

theorem Grouped.ids_ne_nil (h : b.Grouped) (recorded : b.batch n = some batch) :
    batch.ids ≠ [] :=
  List.ne_nil_of_length_pos (h.sized recorded).1

theorem InOrder.congr {b' : Book} {ids : List UInt64} (h : b.InOrder ids)
    (same : ∀ id ∈ ids, ∀ t', b'.transfer id = some t' →
      ∃ t, b.transfer id = some t ∧ t.position = t'.position) : b'.InOrder ids := by
  refine List.Pairwise.imp_of_mem ?_ h
  intro i j memI memJ before t' u' foundT foundU
  obtain ⟨t, keptT, placeT⟩ := same i memI t' foundT
  obtain ⟨u, keptU, placeU⟩ := same j memJ u' foundU
  rw [← placeT, ← placeU]
  exact before t u keptT keptU

theorem Recorded.not_kept_next (h : b.Recorded) : b.transfer b.next = none := by
  cases kept : b.transfer b.next with
  | none => rfl
  | some t => exact absurd (h.fresh kept).2 (UInt64.lt_irrefl _)

theorem Recorded.not_kept_batch (h : b.Recorded) (own : n = b.last + 1)
    (room : b.last.toNat + 1 < UInt64.size) : b.batch n = none := by
  rw [← Option.not_isSome_iff_eq_none, h.numbered, own]
  intro ⟨_, below⟩
  rw [UInt64.le_iff_toNat_le, toNat_succ room] at below
  omega

theorem Configured.bounds (h : b.Configured) {c : Config} (config : b.config = some c) :
    c.InBounds := by
  obtain ⟨c', found, bounds⟩ := h.config_bounds
  rw [config, Option.some.injEq] at found
  exact found ▸ bounds

/-- The escrow holds what each transfer is worth. -/
theorem Balanced.covered (h : b.Balanced) (kept : b.transfer id = some t) :
    t.worth ≤ b.locked.held t.token.denom := by
  have change := worthOf_update b.transfer id none t.token.denom
  rw [kept, shareOf_some, shareOf_none, Transfer.share, if_pos rfl] at change
  rw [h.held_eq, worth]
  omega

theorem Balanced.fits (h : b.Balanced) (kept : b.transfer id = some t) :
    t.worth < Nat.pow 2 128 :=
  Nat.lt_of_le_of_lt (h.covered kept) (b.locked.held_lt _)

/-- A transfer that an open batch lists does not wait. -/
theorem Grouped.not_waiting (h : b.Grouped) (recorded : b.batch n = some batch)
    (opened : batch.state = .open) (listed : id ∈ batch.ids) (kept : b.transfer id = some t) :
    t.state = .inBatch n :=
  (h.carried_iff kept).mpr ⟨batch, recorded, opened, listed⟩

/-- Two open batches that list one transfer are the same. -/
theorem Grouped.open_once (h : b.Grouped) {m : UInt64} {other : Batch}
    (recorded : b.batch n = some batch) (opened : batch.state = .open)
    (recorded' : b.batch m = some other) (opened' : other.state = .open)
    (listed : id ∈ batch.ids) (listed' : id ∈ other.ids) : m = n := by
  obtain ⟨t, kept, _⟩ := h.open_kept recorded opened listed
  have first := h.not_waiting recorded opened listed kept
  have second := h.not_waiting recorded' opened' listed' kept
  rw [first] at second
  exact (TransferState.inBatch.inj second).symm

end Book

end BridgePool
