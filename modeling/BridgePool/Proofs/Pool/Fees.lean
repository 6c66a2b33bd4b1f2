import BridgePool.Bridge.Answer
import BridgePool.Proofs.Pool.Scan
import Mathlib.Algebra.BigOperators.Group.Finset.Basic
import Mathlib.Algebra.Group.Action.Defs
import Mathlib.Algebra.Order.BigOperators.Group.List

/-!
# Sums of fees

A listing that is added up and a batch that is shown go through transfers one by one, and come to
the sum of their fees (`FeeTotal.collect_ofTransfers`, `BatchView.collect_ids`). What the escrow
holds bounds every fee, so the sums of up to a thousand fees have room in a token's amount
(`Book.Sound.fees_lt`), and every recorded batch can be shown (`Store.Keeps.exists_view`). The front
of a queue has the largest sum that so many of its transfers can have (`sum_le_sum_take`).
-/

namespace BridgePool

open scoped BigOperators

variable {s : Store} {b : Book} {ts : List Transfer}

/-- The fees of transfers together. -/
def Transfer.fees (ts : List Transfer) : Nat :=
  (ts.map (·.fee.amount.val)).sum

theorem Transfer.fees_cons (t : Transfer) (ts : List Transfer) :
    fees (t :: ts) = t.fee.amount.val + fees ts := by
  rw [fees, List.map_cons, List.sum_cons, fees]

/-- A thousand fees of kept transfers fit a token's amount. -/
theorem Book.Sound.fees_lt (sound : b.Sound) (kept : ∀ t ∈ ts, b.transfer t.id = some t)
    (few : ts.length ≤ 1000) : Transfer.fees ts < Nat.pow 2 256 := by
  have each : ∀ fee ∈ ts.map (·.fee.amount.val), fee ≤ Nat.pow 2 128 := by
    intro fee mem
    obtain ⟨t, listed, rfl⟩ := List.mem_map.mp mem
    have fits := sound.fits (kept t listed)
    rw [Transfer.worth] at fits
    omega
  have total := List.sum_le_card_nsmul _ _ each
  rw [List.length_map, smul_eq_mul] at total
  calc
    Transfer.fees ts ≤ ts.length * Nat.pow 2 128 := total
    _ ≤ 1000 * Nat.pow 2 128 := Nat.mul_le_mul_right _ few
    _ < Nat.pow 2 256 := by decide

/-! ## Adding up -/

/-- A total goes on over transfers that are kept: the first one of all names the token. -/
theorem FeeTotal.collect_ofTransfers (kept : ∀ t ∈ ts, s.transfer? t.id = .ok (some t))
    (total : FeeTotal) (room : total.total.val + Transfer.fees ts < Nat.pow 2 256)
    (few : total.count.toNat + ts.length < UInt32.size) :
    ∃ f, collect s total (Listing.ofTransfers ts) = .ok f ∧
      f.total.val = total.total.val + Transfer.fees ts ∧
        f.count.toNat = total.count.toNat + ts.length ∧
          f.token = if total.count = 0 then (ts.head?.map (·.fee.contract)).getD total.token
            else total.token := by
  induction ts generalizing total with
  | nil => exact ⟨total, rfl, rfl, rfl, by simp⟩
  | cons t rest ih =>
      obtain ⟨now, later⟩ := List.forall_mem_cons.mp kept
      rw [Transfer.fees_cons] at room ⊢
      rw [List.length_cons] at few ⊢
      have fetched : Listing.fetch s (.ok t.id) = .ok t := by
        rw [Listing.fetch]
        simp only [bind, Except.bind, now]
        rfl
      have fits : total.total.val + t.fee.amount.val < Nat.pow 2 256 := by omega
      have added : total.total.add? t.fee.amount = some ⟨_, fits⟩ :=
        Amount.add?_eq_some.mpr rfl
      have counted : (total.count + 1).toNat = total.count.toNat + 1 := by
        rw [UInt32.toNat_add, UInt32.toNat_one]
        exact Nat.mod_eq_of_lt (show total.count.toNat + 1 < UInt32.size by omega)
      have counts : total.count + 1 ≠ 0 := by
        rw [Ne, ← UInt32.toNat_inj, counted]
        exact Nat.succ_ne_zero _
      obtain ⟨f, collected, sum, count, token⟩ :=
        ih later ⟨if total.count = 0 then t.fee.contract else total.token, ⟨_, fits⟩,
          total.count + 1⟩ (by dsimp only; omega) (by dsimp only; omega)
      refine ⟨f, ?_, ?_, ?_, ?_⟩
      · rw [Listing.ofTransfers, List.map_cons, collect, fetched]
        simp only [bind, Except.bind, added]
        exact collected
      · rw [sum]
        dsimp only
        omega
      · rw [count]
        dsimp only
        omega
      · rw [token, if_neg counts]
        rfl

/-- A view goes on over the ids of transfers that are kept. -/
theorem BatchView.collect_ids (kept : ∀ t ∈ ts, s.transfer? t.id = .ok (some t))
    (shown : List Transfer) (fees : TokenAmount)
    (room : fees.val + Transfer.fees ts < Nat.pow 2 256) :
    ∃ total : TokenAmount, collect s (ts.map (·.id)) shown fees = .ok (shown ++ ts, total) ∧
      total.val = fees.val + Transfer.fees ts := by
  induction ts generalizing shown fees with
  | nil => exact ⟨fees, by rw [List.append_nil]; rfl, rfl⟩
  | cons t rest ih =>
      obtain ⟨now, later⟩ := List.forall_mem_cons.mp kept
      rw [Transfer.fees_cons] at room ⊢
      have fits : fees.val + t.fee.amount.val < Nat.pow 2 256 := by omega
      have added : fees.add? t.fee.amount = some ⟨_, fits⟩ := Amount.add?_eq_some.mpr rfl
      obtain ⟨total, collected, sum⟩ := ih later (shown ++ [t]) ⟨_, fits⟩ (by dsimp only; omega)
      refine ⟨total, ?_, ?_⟩
      · rw [List.append_assoc] at collected
        rw [List.map_cons, collect, now]
        simp only [bind, Except.bind, added]
        exact collected
      · rw [sum]
        dsimp only
        omega

/-- What is shown of a batch depends on the records of its transfers alone. -/
theorem BatchView.collect_congr {s' : Store} {ids : List UInt64}
    (same : ∀ id ∈ ids, s'.transfer? id = s.transfer? id) (shown : List Transfer)
    (fees : TokenAmount) : collect s' ids shown fees = collect s ids shown fees := by
  induction ids generalizing shown fees with
  | nil => rfl
  | cons id rest ih =>
      obtain ⟨now, later⟩ := List.forall_mem_cons.mp same
      rw [collect, collect, now]
      simp only [ih later]

/-- A view passes over the ids of transfers that are gone. -/
theorem BatchView.collect_kept (h : s.Keeps b) (recorded : b.Recorded) (ids : List UInt64)
    (shown : List Transfer) (fees : TokenAmount) : collect s ids shown fees =
      collect s ((ids.filterMap b.transfer).map (·.id)) shown fees := by
  induction ids generalizing shown fees with
  | nil => rfl
  | cons id rest ih =>
      rw [collect, h.transfer?]
      cases kept : b.transfer id with
      | none =>
          rw [List.filterMap_cons_none kept]
          exact ih shown fees
      | some t =>
          obtain rfl := recorded.transfer_id kept
          rw [List.filterMap_cons_some kept, List.map_cons, collect, h.transfer?, kept]
          simp only [bind, Except.bind, ih]

/-- Of a recorded batch, the transfers that are kept can be shown and their fees added up. -/
theorem Store.Keeps.exists_view (h : s.Keeps b) (sound : b.Sound) {n : UInt64} {batch : Batch}
    (recorded : b.batch n = some batch) : ∃ total : TokenAmount,
      BatchView.ofBatch s batch =
        .ok ⟨batch, batch.ids.filterMap b.transfer, ⟨total, batch.contract⟩⟩ ∧
      total.val = Transfer.fees (batch.ids.filterMap b.transfer) := by
  have kept : ∀ t ∈ batch.ids.filterMap b.transfer, b.transfer t.id = some t := by
    intro t mem
    obtain ⟨id, _, kept⟩ := List.mem_filterMap.mp mem
    rwa [sound.transfer_id kept]
  have few : (batch.ids.filterMap b.transfer).length ≤ 1000 :=
    (List.length_filterMap_le _ _).trans (sound.sized recorded).2.1
  obtain ⟨total, collected, sum⟩ := BatchView.collect_ids
    (fun t mem => (h.transfer? t.id).trans (congrArg _ (kept t mem))) [] Amount.zero
    (by simpa using sound.fees_lt kept few)
  refine ⟨total, ?_, sum.trans (Nat.zero_add _)⟩
  rw [BatchView.ofBatch, BatchView.collect_kept h sound.toRecorded, collected]
  rfl

/-! ## The largest sum -/

/-- No more than `count` members of a descending list weigh more than its first `count`. -/
theorem sum_le_sum_take {α : Type} [DecidableEq α] {weight : α → Nat} {all : List α}
    (descending : all.Pairwise fun a b => weight b ≤ weight a) {picks : Finset α}
    (among : ∀ a ∈ picks, a ∈ all) {count : Nat} (few : picks.card ≤ count) :
    ∑ a ∈ picks, weight a ≤ ((all.take count).map weight).sum := by
  induction all generalizing picks count with
  | nil =>
      have nothing : picks = ∅ := Finset.eq_empty_of_forall_notMem fun a mem =>
        List.not_mem_nil (among a mem)
      simp [nothing]
  | cons first rest ih =>
      obtain ⟨below, descending⟩ := List.pairwise_cons.mp descending
      rcases picks.eq_empty_or_nonempty with rfl | nonempty
      · simp
      -- the first member is exchanged for itself, if it is picked, or for another pick
      have exchange : ∃ a ∈ picks, weight a ≤ weight first ∧ ∀ b ∈ picks.erase a, b ∈ rest := by
        by_cases picked : first ∈ picks
        · refine ⟨first, picked, Nat.le_refl _, fun b mem => ?_⟩
          obtain ⟨other, mem⟩ := Finset.mem_erase.mp mem
          exact (List.mem_cons.mp (among b mem)).resolve_left other
        · have inRest {b : α} (mem : b ∈ picks) : b ∈ rest :=
            (List.mem_cons.mp (among b mem)).resolve_left fun same => picked (same ▸ mem)
          obtain ⟨a, mem⟩ := nonempty
          exact ⟨a, mem, below a (inRest mem), fun b mem => inRest (Finset.mem_of_mem_erase mem)⟩
      obtain ⟨a, mem, lighter, others⟩ := exchange
      have card := Finset.card_erase_add_one mem
      obtain ⟨count, rfl⟩ := Nat.exists_eq_add_of_le' (show 1 ≤ count by omega)
      have left := ih descending others (show (picks.erase a).card ≤ count by omega)
      have split := Finset.sum_erase_add picks weight mem
      rw [List.take_succ_cons, List.map_cons, List.sum_cons]
      omega

end BridgePool
