import BridgePool.Batch.Lifecycle
import BridgePool.Proofs.Pool

/-!
# The loops over a batch's transfers

Building a batch assigns transfers one by one, and ending it puts them back or settles them one by
one. Each loop changes the book as one deed on all its transfers: `Book.carry`, `Book.giveBack`
and `Book.drop`.
-/

namespace BridgePool

open Operation

variable {b : Book} {s s' : Store} {v v' : Vault} {u : Unit} {t : Transfer} {ts : List Transfer}
  {id nonce : UInt64} {ids : List UInt64}

/-! ## One transfer more -/

namespace Book

@[simp] theorem carry_nil : b.carry [] nonce = b := by
  ext1 <;> simp [carry, moved, places, funext_iff]

@[simp] theorem giveBack_nil : b.giveBack [] = b := by
  ext1 <;> simp [giveBack, moved, places, funext_iff]

@[simp] theorem drop_nil : b.drop [] [] = b := by
  ext1 <;> simp [drop, without, Holdings.spendAll, funext_iff]

/-- The book with one waiting transfer moved into a batch. -/
def carryOne (b : Book) (t : Transfer) (nonce : UInt64) : Book :=
  { b with
    listed := b.listed \ {t.position}
    transfer := Function.update b.transfer t.id (some { t with state := .inBatch nonce }) }

/-- The book with one carried transfer back in the pool. -/
def giveBackOne (b : Book) (t : Transfer) : Book :=
  { b with
    transfer := Function.update b.transfer t.id (some { t with state := .unbatched })
    listed := insert t.position b.listed }

/-- The book without one carried transfer that the ledger paid for. -/
def dropOne (b : Book) (t : Transfer) : Book :=
  { b with
    locked := b.locked.spend t.token.denom t.worth
    transfer := Function.update b.transfer t.id none }

/-- Rewriting one record leaves those with other ids as they are. -/
theorem map_update_of_not_mem {records : UInt64 → Option Transfer} {row : Option Transfer}
    (absent : id ∉ ids) : ids.map (Function.update records id row) = ids.map records := by
  apply List.map_congr_left
  intro i mem
  apply Function.update_of_ne
  rintro rfl
  exact absent mem

/-- Rewriting a record's state moves it as `moved` does. -/
theorem moved_cons {b' : Book} {state : TransferState} (kept : b.transfer t.id = some t)
    (records : b'.transfer = Function.update b.transfer t.id (some { t with state })) :
    b'.moved ids state = b.moved (t.id :: ids) state := by
  funext i
  rw [moved, moved, records, Function.update_apply]
  by_cases same : i = t.id
  · by_cases listed : t.id ∈ ids <;> simp [same, listed, kept]
  · simp [same]

/-- Rewriting a record's state leaves positions where they are. -/
theorem places_cons {b' : Book} {state : TransferState} (kept : b.transfer t.id = some t)
    (records : b'.transfer = Function.update b.transfer t.id (some { t with state })) :
    b.places (t.id :: ids) = insert t.position (b'.places ids) := by
  ext p
  simp only [places, Set.mem_ofPred_eq, Set.mem_insert_iff, List.mem_cons, records]
  by_cases same : p.id = t.id
  · simp only [same, Function.update_self, kept, Option.some.injEq, exists_eq_left', true_or,
      true_and, Transfer.position]
    constructor
    · intro place
      exact .inl place.symm
    · rintro (rfl | ⟨_, place⟩)
      · rfl
      · exact place
  · have apart : p ≠ t.position := fun place => same (place ▸ rfl)
    simp [same, apart]

theorem carry_cons (kept : b.transfer t.id = some t) :
    (b.carryOne t nonce).carry ids nonce = b.carry (t.id :: ids) nonce := by
  have records : (b.carryOne t nonce).moved ids (.inBatch nonce) =
      b.moved (t.id :: ids) (.inBatch nonce) := moved_cons kept rfl
  have positions : b.places (t.id :: ids) =
      insert t.position ((b.carryOne t nonce).places ids) := places_cons kept rfl
  rw [carry, carry, records, positions, Set.insert_eq, ← Set.sdiff_sdiff]
  rfl

theorem giveBack_cons (kept : b.transfer t.id = some t) :
    (b.giveBackOne t).giveBack ids = b.giveBack (t.id :: ids) := by
  have records : (b.giveBackOne t).moved ids .unbatched = b.moved (t.id :: ids) .unbatched :=
    moved_cons kept rfl
  have positions : b.places (t.id :: ids) = insert t.position ((b.giveBackOne t).places ids) :=
    places_cons kept rfl
  rw [giveBack, giveBack, records, positions, Set.union_insert, ← Set.insert_union]
  rfl

theorem drop_cons : (b.dropOne t).drop ids ts = b.drop (t.id :: ids) (t :: ts) := by
  have records : (b.dropOne t).without ids = b.without (t.id :: ids) := by
    funext i
    by_cases same : i = t.id <;> simp [dropOne, without, same]
  rw [drop, drop, records]
  rfl

end Book

namespace Batch

/-! ## Waiting transfers move into a batch -/

theorem keeps_assign (h : s.Keeps b) :
    ((s.removeFeeRow t).saveTransfer { t with state := .inBatch nonce }).Keeps
      (b.carryOne t nonce) :=
  (h.removeFeeRow t).saveTransfer { t with state := .inBatch nonce }

variable (nonce) in
/-- Assigning records that are kept always succeeds. -/
theorem run_forM_assign (h : s.Keeps b) (kept : (ts.map (·.id)).map b.transfer = ts.map some)
    (distinct : (ts.map (·.id)).Nodup) :
    ∃ s', run (ts.forM (assign nonce)) s = (.ok (), s') ∧
      s'.Keeps (b.carry (ts.map (·.id)) nonce) := by
  -- for any store and book, since each step leaves others to the rest of the list
  induction ts generalizing b s with
  | nil => exact ⟨s, rfl, by rwa [List.map_nil, Book.carry_nil]⟩
  | cons t ts ih =>
      obtain ⟨found, kept⟩ := List.cons.inj kept
      obtain ⟨fresh, distinct⟩ := List.nodup_cons.mp distinct
      have rest : (ts.map (·.id)).map (b.carryOne t nonce).transfer = ts.map some :=
        (Book.map_update_of_not_mem fresh).trans kept
      obtain ⟨s', done, keeps⟩ := ih (keeps_assign h) rest distinct
      rw [Book.carry_cons found] at keeps
      exact ⟨s', run_bind_eq_ok.mpr ⟨(), _, rfl, done⟩, keeps⟩

/-! ## Carried transfers go back to the pool -/

theorem keeps_putBack (h : s.Keeps b) :
    ((s.saveTransfer { t with state := .unbatched }).addFeeRow
      { t with state := .unbatched }).Keeps (b.giveBackOne t) :=
  (h.saveTransfer { t with state := .unbatched }).addFeeRow { t with state := .unbatched }

theorem run_carried_eq_ok (h : s.Keeps b) :
    run (carried id) s = (.ok t, s') ↔ b.transfer id = some t ∧ s' = s := by
  simp only [carried, run_bind_eq_ok, run_read_eq_ok, h.transfer?, Except.ok.injEq]
  constructor
  · rintro ⟨_, _, ⟨rfl, rfl⟩, done⟩
    split at done
    next t' kept =>
      obtain ⟨rfl, rfl⟩ := run_pure_eq_ok.mp done
      exact ⟨kept, rfl⟩
    next => exact absurd done run_stop_eq_ok
  · rintro ⟨kept, rfl⟩
    refine ⟨_, _, ⟨rfl, rfl⟩, ?_⟩
    rw [kept]
    rfl

/-- Putting back records that are kept always succeeds. -/
theorem run_forM_putBack (h : s.Keeps b)
    (kept : ∀ id ∈ ids, ∃ t, b.transfer id = some t ∧ t.id = id) :
    ∃ s', run (ids.forM putBack) s = (.ok (), s') ∧ s'.Keeps (b.giveBack ids) := by
  induction ids generalizing b s with
  | nil => exact ⟨s, rfl, by rwa [Book.giveBack_nil]⟩
  | cons id ids ih =>
      obtain ⟨t, found, rfl⟩ := kept id List.mem_cons_self
      -- an id that comes up again is kept still, in the state that it was put back in
      have rest : ∀ i ∈ ids, ∃ t', (b.giveBackOne t).transfer i = some t' ∧ t'.id = i := by
        intro i mem
        obtain ⟨t', found', own⟩ := kept i (List.mem_cons_of_mem _ mem)
        by_cases same : i = t.id
        · exact ⟨{ t with state := .unbatched }, by simp [Book.giveBackOne, same], same.symm⟩
        · exact ⟨t', by simp [Book.giveBackOne, same, found'], own⟩
      obtain ⟨s', done, keeps⟩ := ih (keeps_putBack h) rest
      rw [Book.giveBack_cons found] at keeps
      have first : run (putBack t.id) s = (.ok (), _) :=
        run_bind_eq_ok.mpr ⟨t, s, (run_carried_eq_ok h).mpr ⟨found, rfl⟩, rfl⟩
      exact ⟨s', run_bind_eq_ok.mpr ⟨(), _, first, done⟩, keeps⟩

/-! ## Carried transfers are settled -/

/-- What lets the ledger pay for a list of transfers: each has an amount, spelled once, and
together they are covered. -/
structure Payable (l : Holdings) (ts : List Transfer) : Prop where
  spelled : ∀ t ∈ ts, t.fee.contract = t.token.contract
  positive : ∀ t ∈ ts, t.token.amount.val ≠ 0
  covered : ∀ denom, (ts.map (Transfer.share denom)).sum ≤ l.held denom

theorem Payable.worth_le {l : Holdings} (h : Payable l (t :: ts)) :
    t.worth ≤ l.held t.token.denom := by
  have covered := h.covered t.token.denom
  rw [List.map_cons, List.sum_cons, Transfer.share, if_pos rfl] at covered
  omega

theorem Payable.tail {l : Holdings} (h : Payable l (t :: ts)) :
    Payable (l.spend t.token.denom t.worth) ts where
  spelled u mem := h.spelled u (List.mem_cons_of_mem _ mem)
  positive u mem := h.positive u (List.mem_cons_of_mem _ mem)
  covered denom := by
    have covered := h.covered denom
    rw [List.map_cons, List.sum_cons, Transfer.share] at covered
    rw [Holdings.held_spend]
    by_cases same : denom = t.token.denom
    · rw [if_pos same.symm] at covered
      rw [if_pos same, ← same]
      omega
    · rw [if_neg (Ne.symm same)] at covered
      rw [if_neg same]
      omega

/-- The request that burns what a transfer is worth. -/
def burning (t : Transfer) : BankMessage :=
  .burn [t.coin]

theorem run_settle (h : v.store.Keeps b) (kept : b.transfer t.id = some t)
    (payable : Payable b.locked (t :: ts)) :
    ∃ v', run (settle t.id) v = (.ok (), v') ∧ v'.store.Keeps (b.dropOne t) ∧
      v'.escrow = { v.escrow with messages := v.escrow.messages ++ [burning t] } := by
  have covered := payable.worth_le
  have fits : t.worth < Nat.pow 2 128 := Nat.lt_of_le_of_lt covered (b.locked.held_lt _)
  have found : run (Vault.onStore (carried t.id)) v = (.ok t, v) :=
    Vault.run_onStore_eq_ok.mpr ⟨(run_carried_eq_ok h).mpr ⟨kept, rfl⟩, rfl⟩
  have held : Pool.heldCoin t = .ok t.coin :=
    (Pool.heldCoin_eq_ok (payable.spelled t List.mem_cons_self)).mpr ⟨fits, rfl⟩
  have queued := Pool.queue_coin (payable.positive t List.mem_cons_self) fits v.escrow (burning t)
  rw [← Transfer.coin_amount fits] at covered
  obtain ⟨paid, stored⟩ := Ledger.exists_keeps_debit t.coin h covered
  let after : Escrow := { v.escrow with messages := v.escrow.messages ++ [burning t] }
  have burned : run (Vault.burn t.coin) v = (.ok (), ⟨paid, after⟩) :=
    (Vault.run_burn_eq_ok h).mpr ⟨covered, stored, queued.symm⟩
  rw [Transfer.coin_amount fits] at stored
  refine ⟨⟨paid.removeTransfer t.id, after⟩, ?_, stored.removeTransfer t.id, rfl⟩
  exact run_bind_eq_ok.mpr ⟨t, v, found, run_bind_eq_ok.mpr ⟨t.coin, v,
    run_lift_eq_ok.mpr ⟨held, rfl⟩, run_bind_eq_ok.mpr ⟨(), _, burned, rfl⟩⟩⟩

/-- Settling records that are kept and paid for always succeeds. -/
theorem run_forM_settle (h : v.store.Keeps b)
    (kept : (ts.map (·.id)).map b.transfer = ts.map some) (distinct : (ts.map (·.id)).Nodup)
    (payable : Payable b.locked ts) :
    ∃ v', run ((ts.map (·.id)).forM settle) v = (.ok (), v') ∧
      v'.store.Keeps (b.drop (ts.map (·.id)) ts) ∧
      v'.escrow = { v.escrow with messages := v.escrow.messages ++ ts.map burning } := by
  induction ts generalizing b v with
  | nil => exact ⟨v, rfl, by rwa [List.map_nil, Book.drop_nil], by simp⟩
  | cons t ts ih =>
      obtain ⟨found, kept⟩ := List.cons.inj kept
      obtain ⟨fresh, distinct⟩ := List.nodup_cons.mp distinct
      have rest : (ts.map (·.id)).map (b.dropOne t).transfer = ts.map some :=
        (Book.map_update_of_not_mem fresh).trans kept
      obtain ⟨w, first, keeps, escrow⟩ := run_settle h found payable
      obtain ⟨v', done, keeps, escrow'⟩ := ih keeps rest distinct payable.tail
      rw [Book.drop_cons] at keeps
      refine ⟨v', run_bind_eq_ok.mpr ⟨(), w, first, done⟩, keeps, ?_⟩
      rw [escrow', escrow]
      simp

end Batch

end BridgePool
