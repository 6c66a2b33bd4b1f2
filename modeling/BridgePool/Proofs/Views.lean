import BridgePool.Proofs.Batch.Listing
import BridgePool.Proofs.Membership
import BridgePool.Proofs.Pool.Fees

/-!
# Views of batches

A page of batches goes on from any nonce and leaves none out, up to its size or to the last batch.
Whatever way a batch is asked for, it is shown with those of its transfers that are kept, and with
the sum of their fees: all that it lists while it is open, and none of them once it is executed
(`Reachable.batchesShown`).

* `Store.Keeps.listAfter_eq` — which batches a listing finds
* `Store.Keeps.exists_shown` — every recorded batch can be shown
-/

namespace BridgePool

/-- The view of a recorded batch. -/
structure Store.Shows (s : Store) (view : BatchView) : Prop where
  recorded : s.batch? view.batch.nonce = .ok (some view.batch)
  /-- Of what the batch lists, the transfers that have a row are shown, in its order. -/
  listed : view.transfers.map (·.id) =
    view.batch.ids.filter fun id => (s.get? (Cell.transfer id).key).isSome
  kept : ∀ t ∈ view.transfers, s.transfer? t.id = .ok (some t)
  total : view.totalFee.contract = view.batch.contract ∧
    view.totalFee.amount.val = (view.transfers.map (·.fee.amount.val)).sum
  /-- All of an open batch is there, and in it. -/
  whole : view.batch.state = .open → view.transfers.map (·.id) = view.batch.ids ∧
    ∀ t ∈ view.transfers, t.state = .inBatch view.batch.nonce
  /-- Nothing of an executed batch is there. -/
  gone : view.batch.state = .executed → view.transfers = [] ∧ view.totalFee.amount = .zero

/-- What the queries for batches show. -/
structure Store.BatchesShown (s : Store) : Prop where
  /-- A page has the nonces after the one it is asked to start after: ten of them or as many as were
  asked for, but no more than thirty and none after the last. -/
  pages : ∃ last, s.lastNonce = .ok last ∧ ∀ after limit, ∃ views first count,
    first = (after.map UInt64.toNat).getD 0 ∧
      count = min ((limit.map UInt32.toNat).getD 10) 30 ∧
        Bridge.answer s (.batches after limit) = .ok (.batches views) ∧
          views.map (·.batch.nonce.toNat) =
            List.range' (first + 1) (min (first + count) last.toNat - first) ∧
              ∀ view ∈ views, s.Shows view
  /-- A nonce shows the batch that is recorded under it. -/
  one : ∀ nonce, ∃ found, Bridge.answer s (.batch nonce) = .ok (.batch found) ∧
    s.batch? nonce = .ok (found.map (·.batch)) ∧ ∀ view ∈ found, s.Shows view
  /-- A contract shows its open batch, however it is spelled. -/
  pending : ∀ text contract, Address.parse text = .ok contract →
    ∃ found, Bridge.answer s (.pendingBatch text) = .ok (.batch found) ∧
      (∀ batch, found.map (·.batch) = some batch ↔
        batch ∈ s.batchesOpen ∧ batch.contract.raw = contract.raw) ∧ ∀ view ∈ found, s.Shows view

variable {s : Store} {b : Book} {batch : Batch} {view : BatchView}

theorem Store.Keeps.pending? (h : s.Keeps b) (contract : Address) :
    Batch.pending? s contract = .ok ((b.openNonce contract.raw).bind b.batch) := by
  rw [Batch.pending?]
  simp only [bind, Except.bind, h.openNonce?]
  cases b.openNonce contract.raw with
  | none => rfl
  | some n => exact h.batch? n

/-! ## The transfers of a batch -/

namespace Book

variable {ids : List UInt64}

/-- The records of ids name those of them that have one. -/
theorem Recorded.ids_filterMap (h : b.Recorded) (ids : List UInt64) :
    (ids.filterMap b.transfer).map (·.id) = ids.filter fun id => (b.transfer id).isSome := by
  rw [List.map_filterMap, ← List.filterMap_eq_filter]
  refine List.filterMap_congr fun id _ => ?_
  cases kept : b.transfer id with
  | none => simp [Option.guard, kept]
  | some t => simp [Option.guard, kept, h.transfer_id kept]

theorem Grouped.filter_open (h : b.Grouped) {n : UInt64} (recorded : b.batch n = some batch)
    (opened : batch.state = .open) :
    batch.ids.filter (fun id => (b.transfer id).isSome) = batch.ids := by
  rw [List.filter_eq_self]
  intro id listed
  obtain ⟨t, kept, _⟩ := h.open_kept recorded opened listed
  exact Option.isSome_of_eq_some kept

theorem Grouped.filterMap_executed (h : b.Grouped) {n : UInt64}
    (recorded : b.batch n = some batch) (executed : batch.state = .executed) :
    batch.ids.filterMap b.transfer = [] :=
  List.filterMap_eq_nil_iff.mpr fun _ listed => h.executed_gone recorded executed listed

/-- The batch under a contract's open nonce is the open batch of the contract. -/
theorem Filed.pending_iff (h : b.Filed) {contract : RawAddress} :
    (b.openNonce contract).bind b.batch = some batch ↔
      b.batch batch.nonce = some batch ∧ batch.state = .open ∧ batch.contract.raw = contract := by
  rw [Option.bind_eq_some_iff]
  constructor
  · rintro ⟨n, pending, recorded⟩
    obtain ⟨_, found, opened, own⟩ := h.open_iff.mp pending
    obtain rfl := Option.some.inj (found.symm.trans recorded)
    exact ⟨by rwa [h.batch_nonce recorded], opened, own⟩
  · rintro ⟨recorded, opened, own⟩
    exact ⟨batch.nonce, h.open_iff.mpr ⟨batch, recorded, opened, own⟩, recorded⟩

end Book

/-! ## Views -/

namespace BatchView

theorem batch_of_shown (shown : ofBatch s batch = .ok view) : view.batch = batch := by
  rw [ofBatch] at shown
  cases collected : collect s batch.ids [] Amount.zero with
  | error fault =>
      simp only [collected, bind, Except.bind] at shown
      cases shown
  | ok found =>
      simp only [collected, bind, Except.bind] at shown
      cases shown
      rfl

/-- Each of some views is that of its batch. -/
theorem batches_of_shown {batches : List Batch} {views : List BatchView}
    (shown : batches.mapM (ofBatch s) = .ok views) : views.map (·.batch) = batches := by
  have each := (mapM_eq_ok.mp shown).imp fun _ _ shown => (batch_of_shown shown).symm
  rw [← List.forall₂_map_right_iff (f := BatchView.batch), List.forall₂_eq_eq_eq] at each
  exact each.symm

end BatchView

namespace Store.Keeps

variable (h : s.Keeps b) (sound : b.Sound)

include h sound

/-- Every recorded batch can be shown. -/
theorem exists_shown {n : UInt64} (recorded : b.batch n = some batch) :
    ∃ view, BatchView.ofBatch s batch = .ok view ∧ view.batch = batch ∧ s.Shows view := by
  obtain ⟨total, shown, sum⟩ := h.exists_view sound recorded
  obtain rfl := sound.batch_nonce recorded
  have named : (batch.ids.filterMap b.transfer).map (·.id) = _ := sound.ids_filterMap batch.ids
  refine ⟨_, shown, rfl, ?_⟩
  constructor
  case recorded => rw [h.batch?, recorded]
  case listed =>
    rw [named]
    refine List.filter_congr fun id _ => ?_
    rw [h.get?_transfer, Option.isSome_map]
  case kept =>
    intro t mem
    obtain ⟨id, _, kept⟩ := List.mem_filterMap.mp mem
    rw [h.transfer?, sound.transfer_id kept, kept]
  case total => exact ⟨rfl, sum⟩
  case whole =>
    intro opened
    refine ⟨by rw [named, sound.filter_open recorded opened], fun t mem => ?_⟩
    obtain ⟨id, listed, kept⟩ := List.mem_filterMap.mp mem
    exact sound.not_waiting recorded opened listed kept
  case gone =>
    intro executed
    have nothing := sound.filterMap_executed recorded executed
    refine ⟨nothing, Amount.ext (sum.trans ?_)⟩
    rw [nothing]
    rfl

/-- So can a batch that may be missing. -/
theorem exists_shown? (n : Option UInt64) : ∃ found,
    BatchView.ofBatch? s (n.bind b.batch) = .ok found ∧ found.map (·.batch) = n.bind b.batch ∧
      ∀ view ∈ found, s.Shows view := by
  cases recorded : n.bind b.batch with
  | none => exact ⟨none, rfl, rfl, nofun⟩
  | some batch =>
      obtain ⟨n, _, recorded⟩ := Option.bind_eq_some_iff.mp recorded
      obtain ⟨view, shown, own, shows⟩ := h.exists_shown sound recorded
      refine ⟨some view, ?_, congrArg some own, by simpa using shows⟩
      rw [BatchView.ofBatch?, Option.mapM_some, shown]
      rfl

/-! ## Queries -/

theorem answer_batch (nonce : UInt64) : ∃ found,
    Bridge.answer s (.batch nonce) = .ok (.batch found) ∧ found.map (·.batch) = b.batch nonce ∧
      ∀ view ∈ found, s.Shows view := by
  obtain ⟨found, shown, own, shows⟩ := h.exists_shown? sound (some nonce)
  rw [Option.bind_some] at shown own
  refine ⟨found, ?_, own, shows⟩
  simp only [Bridge.answer, h.batch?, shown, bind, Except.bind]
  rfl

theorem answer_pending {text : String} {contract : Address}
    (parsed : Address.parse text = .ok contract) : ∃ found,
      Bridge.answer s (.pendingBatch text) = .ok (.batch found) ∧
        found.map (·.batch) = (b.openNonce contract.raw).bind b.batch ∧
          ∀ view ∈ found, s.Shows view := by
  obtain ⟨found, shown, own, shows⟩ := h.exists_shown? sound (b.openNonce contract.raw)
  refine ⟨found, ?_, own, shows⟩
  simp only [Bridge.answer, Bridge.askedAddress, parsed, Except.mapError, h.pending?, shown, bind,
    Except.bind]
  rfl

theorem answer_batches (after : Option UInt64) (limit : Option UInt32) : ∃ views,
    Bridge.answer s (.batches after limit) = .ok (.batches views) ∧
      views.map (·.batch) =
        (b.batchesAfter (Batch.cursor after)).take (Bridge.pageSize 10 30 limit) ∧
          ∀ view ∈ views, s.Shows view := by
  have listed := h.listAfter_eq sound.toRecorded after (Bridge.pageSize 10 30 limit)
  have recorded : ∀ batch ∈ (b.batchesAfter (Batch.cursor after)).take (Bridge.pageSize 10 30 limit),
      b.batch batch.nonce = some batch :=
    fun batch mem => (sound.mem_batchesAfter.mp (List.mem_of_mem_take mem)).1
  generalize (b.batchesAfter _).take _ = batches at listed recorded ⊢
  obtain ⟨views, shown, shows⟩ := exists_mapM_forall fun batch mem =>
    (h.exists_shown sound (recorded batch mem)).imp fun _ found => ⟨found.1, found.2.2⟩
  refine ⟨views, ?_, BatchView.batches_of_shown shown, shows⟩
  simp only [Bridge.answer, listed, shown, bind, Except.bind]
  rfl

theorem batches_shown : s.BatchesShown where
  pages := by
    refine ⟨_, h.lastNonce, fun after limit => ?_⟩
    obtain ⟨views, answered, own, shows⟩ := h.answer_batches sound after limit
    refine ⟨views, _, _, rfl, rfl, answered, ?_, shows⟩
    have nonces := congrArg (List.map (·.nonce.toNat)) own
    rw [List.map_map, sound.nonces_take] at nonces
    exact nonces
  one nonce := by
    obtain ⟨found, answered, own, shows⟩ := h.answer_batch sound nonce
    exact ⟨found, answered, by rw [h.batch?, own], shows⟩
  pending text contract parsed := by
    obtain ⟨found, answered, own, shows⟩ := h.answer_pending sound parsed
    refine ⟨found, answered, fun batch => ?_, shows⟩
    rw [own, sound.filed.pending_iff, mem_batchesOpen h, and_assoc]

end Store.Keeps

/-- In every reachable store, the queries show batches as they are. -/
theorem Reachable.batchesShown (h : Reachable s) : s.BatchesShown :=
  h.keeps.batches_shown h.sound

/-- After the first request, the first page shows the first batch with the first send, and nothing
comes after the last word. -/
theorem Chain.batchesShown_after_firstRequest : ∃ s : Store, Reachable s ∧ s.BatchesShown ∧
    (∃ view, Bridge.answer s (.batches none none) = .ok (.batches [view]) ∧
      view.batch.nonce = 1 ∧ view.transfers.map (·.id) = [1]) ∧
        Bridge.answer s (.batches (some 0xffffffffffffffff) none) = .ok (.batches []) := by
  obtain ⟨c, s, reached, keeps⟩ := run_firstRequest
  have shown := reached.batchesShown
  obtain ⟨last, counted, pages⟩ := shown.pages
  obtain rfl : last = 1 := by
    rw [keeps.lastNonce] at counted
    exact (Except.ok.inj counted).symm
  obtain ⟨views, _, _, rfl, rfl, answered, nonces, shows⟩ := pages none none
  obtain ⟨view, rfl, nonce⟩ : ∃ view, views = [view] ∧ view.batch.nonce.toNat = 1 :=
    List.map_eq_singleton_iff.mp nonces
  have nonce : view.batch.nonce = 1 := UInt64.toNat_inj.mp nonce
  have shows := shows view List.mem_cons_self
  have own : view.batch = firstBatch c := by
    have recorded := shows.recorded
    rw [nonce, keeps.batch?, Except.ok.injEq] at recorded
    exact (Option.some.inj recorded).symm
  have whole := (shows.whole (own ▸ rfl)).1
  obtain ⟨views, _, _, rfl, rfl, later, nonces, _⟩ := pages (some 0xffffffffffffffff) none
  obtain rfl : views = [] := List.map_eq_nil_iff.mp nonces
  exact ⟨s, reached, shown, ⟨view, answered, nonce, whole.trans (own ▸ rfl)⟩, later⟩

end BridgePool
