import BridgePool.Proofs.Indices

/-!
# The queue of a contract

`Store.queue` sorts the waiting transfers of a contract by their numbers: fees descending, and
among equal fees ids descending. It is made from the records alone. The positions of the queue are
those that the fee rows list of the contract, in the same order (`Store.Keeps.lists_queue`).
-/

namespace BridgePool

/-- A list sorted by an order is in that order. -/
theorem pairwise_mergeSort_not {α : Type} (r : α → α → Prop) [DecidableRel r]
    (trans : ∀ {a b c}, ¬ r b a → ¬ r c b → ¬ r c a) (total : ∀ a b, ¬ r b a ∨ ¬ r a b)
    (xs : List α) : (xs.mergeSort fun a b => ¬ r b a).Pairwise fun a b => ¬ r b a := by
  have sorted : (xs.mergeSort fun a b => ¬ r b a).Pairwise fun a b => decide (¬ r b a) = true := by
    apply List.pairwise_mergeSort
    · intro a b c first second
      simp only [decide_eq_true_eq] at *
      exact trans first second
    · intro a b
      simpa only [Bool.or_eq_true, decide_eq_true_eq] using total a b
  exact sorted.imp of_decide_eq_true

namespace Transfer

/-- The transfer has the higher fee, or an equal fee and the higher id. -/
def outbids (t u : Transfer) : Prop :=
  u.fee.amount.val < t.fee.amount.val ∨ u.fee.amount.val = t.fee.amount.val ∧ u.id < t.id

instance : DecidableRel outbids :=
  fun _ _ => inferInstanceAs (Decidable (_ ∨ _))

variable {t u v : Transfer}

theorem not_outbids_trans (first : ¬ u.outbids t) (second : ¬ v.outbids u) : ¬ v.outbids t := by
  simp only [outbids, UInt64.lt_iff_toNat_lt] at *
  omega

theorem not_outbids_total (t u : Transfer) : ¬ u.outbids t ∨ ¬ t.outbids u := by
  simp only [outbids, UInt64.lt_iff_toNat_lt]
  omega

/-- Of two transfers with different ids one outbids the other. -/
theorem outbids_of_not (different : t.id ≠ u.id) (h : ¬ u.outbids t) : t.outbids u := by
  rw [Ne, ← UInt64.toNat_inj] at different
  simp only [outbids, UInt64.lt_iff_toNat_lt] at *
  omega

end Transfer

/-- The waiting transfers of a contract, fees descending and then ids descending. -/
def Store.queue (s : Store) (contract : RawAddress) : List Transfer :=
  (s.waiting.filter (·.token.contract.raw = contract)).mergeSort fun t u => ¬ u.outbids t

namespace Store

variable {s : Store} {b : Book} {contract : RawAddress} {t : Transfer}

theorem mem_queue : t ∈ s.queue contract ↔ t ∈ s.waiting ∧ t.token.contract.raw = contract := by
  rw [queue, List.mem_mergeSort, List.mem_filter, decide_eq_true_iff]

theorem Legible.nodup_waiting (h : s.Legible) : (s.waiting.map (·.id)).Nodup :=
  h.nodup_transfers.sublist (List.Sublist.map _ List.filter_sublist)

theorem Legible.nodup_queue (h : s.Legible) (contract : RawAddress) :
    ((s.queue contract).map (·.id)).Nodup := by
  have sorted : (s.queue contract).Perm (s.waiting.filter (·.token.contract.raw = contract)) :=
    List.mergeSort_perm _ _
  rw [(sorted.map _).nodup_iff]
  exact h.nodup_waiting.sublist (List.Sublist.map _ List.filter_sublist)

/-- Each transfer of the queue outbids those after it. -/
theorem Legible.descending_queue (h : s.Legible) (contract : RawAddress) :
    (s.queue contract).Pairwise Transfer.outbids := by
  have sorted : (s.queue contract).Pairwise fun t u => ¬ u.outbids t :=
    pairwise_mergeSort_not Transfer.outbids Transfer.not_outbids_trans Transfer.not_outbids_total _
  have different := List.pairwise_map.mp (h.nodup_queue contract)
  refine (sorted.and different).imp ?_
  rintro t u ⟨notAfter, different⟩
  exact Transfer.outbids_of_not different notAfter

/-- The queue goes through the positions that the book lists of the contract. -/
theorem Keeps.lists_queue (h : s.Keeps b) (sound : b.Sound) (contract : RawAddress) :
    b.Lists contract ((s.queue contract).map Transfer.position) := by
  have own {t : Transfer} (mem : t ∈ s.queue contract) : t.position.contract = contract := by
    obtain ⟨waits, own⟩ := mem_queue.mp mem
    rw [Transfer.position, sound.spelled ((mem_waiting h).mp waits).1]
    exact own
  constructor
  · rw [List.pairwise_map]
    refine (h.legible.descending_queue contract).imp_of_mem ?_
    intro t u memT memU outbids
    exact .inr ⟨(own memT).trans (own memU).symm, outbids⟩
  · intro p
    rw [List.mem_map, sound.listed_iff]
    constructor
    · rintro ⟨t, mem, rfl⟩
      obtain ⟨kept, waits⟩ := (mem_waiting h).mp (mem_queue.mp mem).1
      exact ⟨⟨t, kept, waits, rfl⟩, own mem⟩
    · rintro ⟨⟨t, kept, waits, rfl⟩, contract⟩
      have mem : t ∈ s.waiting := (mem_waiting h).mpr ⟨kept, waits⟩
      refine ⟨t, mem_queue.mpr ⟨mem, ?_⟩, rfl⟩
      rw [← sound.spelled kept]
      exact contract

end Store

end BridgePool
