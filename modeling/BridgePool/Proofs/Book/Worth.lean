import BridgePool.Proofs.Book.Deed
import BridgePool.Proofs.Store.Records
import Mathlib.Algebra.BigOperators.Group.Finset.Basic
import Mathlib.Data.Fintype.EquivFin

/-!
# What the records are worth

The worth of a book in a denom is a sum over all ids (`Book.worth`), so that every change of the
records has its equation. On a legible store it is the sum over the list of transfers
(`Store.Legible.worth_eq`).
-/

namespace BridgePool

/-- There are finitely many words; how they are listed does not matter, and is kept out of
sight of the elaborator. -/
noncomputable instance fintypeWord : Fintype UInt64 :=
  have := Finite.of_injective UInt64.toFin fun _ _ => UInt64.toFin_inj.mp
  Fintype.ofFinite UInt64

/-- What a record that may be missing is worth in a denom. -/
def shareOf (denom : String) (t : Option Transfer) : Nat :=
  (t.map (Transfer.share denom)).getD 0

/-- What all records are worth in a denom. -/
noncomputable def worthOf (records : UInt64 → Option Transfer) (denom : String) : Nat :=
  ∑ id, shareOf denom (records id)

/-- What the transfers of a book are worth in a denom. -/
noncomputable def Book.worth (b : Book) (denom : String) : Nat :=
  worthOf b.transfer denom

@[simp] theorem shareOf_none (denom : String) : shareOf denom none = 0 := rfl

@[simp] theorem shareOf_some (denom : String) (t : Transfer) :
    shareOf denom (some t) = t.share denom := rfl

theorem worthOf_update (records : UInt64 → Option Transfer) (id : UInt64)
    (row : Option Transfer) (denom : String) :
    worthOf (Function.update records id row) denom + shareOf denom (records id) =
      worthOf records denom + shareOf denom row := by
  have others : ∀ i ∈ Finset.univ.erase id,
      shareOf denom (Function.update records id row i) = shareOf denom (records i) := by
    intro i mem
    rw [Function.update_of_ne (Finset.ne_of_mem_erase mem)]
  -- both sums are split at the id that changes
  have split_old := Finset.add_sum_erase Finset.univ (fun i => shareOf denom (records i))
    (Finset.mem_univ id)
  have split_new := Finset.add_sum_erase Finset.univ
    (fun i => shareOf denom (Function.update records id row i)) (Finset.mem_univ id)
  rw [Finset.sum_congr rfl others, Function.update_self] at split_new
  rw [worthOf, worthOf, ← split_old, ← split_new]
  omega

namespace Book

/-- Moving records to another state changes nothing of what they are worth. -/
theorem worthOf_moved (b : Book) (ids : List UInt64) (state : TransferState) (denom : String) :
    worthOf (b.moved ids state) denom = b.worth denom := by
  unfold worth worthOf moved
  apply Finset.sum_congr rfl
  intro id _
  split
  · cases b.transfer id <;> rfl
  · rfl

/-- Records that are taken out take what they are worth with them. -/
theorem worthOf_without (b : Book) {ids : List UInt64} (distinct : ids.Nodup)
    {ts : List Transfer} (kept : ids.map b.transfer = ts.map some) (denom : String) :
    worthOf (b.without ids) denom + (ts.map (Transfer.share denom)).sum = b.worth denom := by
  -- the ids are taken out one after the other, which needs them to be distinct
  induction ids generalizing ts with
  | nil =>
      obtain rfl := List.map_eq_nil_iff.mp kept.symm
      unfold without worth
      simp
  | cons id ids ih =>
      obtain ⟨fresh, distinct⟩ := List.nodup_cons.mp distinct
      cases ts with
      | nil => simp at kept
      | cons t ts =>
          obtain ⟨found, rest⟩ := List.cons.inj kept
          have step : b.without (id :: ids) = Function.update (b.without ids) id none := by
            funext i
            by_cases same : i = id <;> simp [without, same]
          have single := worthOf_update (b.without ids) id none denom
          have whole := ih distinct rest
          rw [without, if_neg fresh, found, shareOf_some, shareOf_none, ← step] at single
          rw [List.map_cons, List.sum_cons]
          omega

end Book

/-- The list of transfers is worth what the book says. -/
theorem Store.Legible.worth_eq {s : Store} (h : s.Legible) (denom : String) :
    s.worth denom = s.book.worth denom := by
  have listed : ∀ ts : List Transfer,
      (ts.filter (·.token.denom = denom)).foldr (fun t total => t.worth + total) 0 =
        (ts.map (Transfer.share denom)).sum := by
    intro ts
    induction ts with
    | nil => rfl
    | cons t ts ih =>
        by_cases same : t.token.denom = denom <;> simp [Transfer.share, same, ih]
  have shares : s.transfers.map (Transfer.share denom) =
      (s.transfers.map (·.id)).map fun id => shareOf denom (s.book.transfer id) := by
    rw [List.map_map]
    apply List.map_congr_left
    intro t mem
    rw [Function.comp_apply, h.mem_transfers.mp mem, shareOf_some]
  rw [Store.worth, listed, shares, ← List.sum_toFinset _ h.nodup_transfers]
  unfold Book.worth worthOf
  -- ids that are not listed have no record and add nothing
  apply Finset.sum_subset (Finset.subset_univ _)
  intro id _ absent
  cases kept : s.book.transfer id with
  | none => rfl
  | some t =>
      obtain ⟨rfl, _⟩ := h.get?_transfer kept
      refine absurd ?_ absent
      rw [List.mem_toFinset]
      exact List.mem_map_of_mem (h.mem_transfers.mpr kept)

end BridgePool
