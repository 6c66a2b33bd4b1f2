import BridgePool.Proofs.Book.Timeouts
import BridgePool.Proofs.Indices
import BridgePool.Proofs.Lifecycle
import BridgePool.Proofs.Membership

/-!
# Builds that are undone

A batch that was just built can be cancelled, and times out once a height passes it. Either leaves
the store from before the build, but for the batch's record and the counter of the batches, however
many transfers the batch took. Building once more then makes the same batch under the next nonce
(`Reachable.buildsUndo`).

* `Book.Gathers.disband_gather` — a batch that ends right after it was made leaves its record
* `Store.Keeps.undone_iff` — the store of the book that is left, row by row
* `Store.Keeps.returned` — giving a new batch back leaves that store
-/

namespace BridgePool

/-- The store is that of before a batch was built, but for the batch's record and the counter. -/
structure Store.Undone (s : Store) (closed : Batch) (s' : Store) : Prop where
  record : s'.get? (Cell.batch closed.nonce).key = some (Codec.bytes closed)
  counter : s'.get? Cell.lastNonce.key = some (Cell.word closed.nonce)
  rest : ∀ key, key ≠ (Cell.batch closed.nonce).key → key ≠ Cell.lastNonce.key →
    s'.get? key = s.get? key

/-- What the end of a batch makes of the store `s₁` that its build left, held against the store `s`
from before the build. -/
structure Store.UndoesBuild (s : Store) (block : UInt64) (contract : Address) (count : Nat)
    (timeout : UInt64) (batch : Batch) (s₁ : Store) : Prop where
  /-- Cancelling the batch undoes the build. -/
  cancelled : ∃ s₂, (Batch.cancel batch.nonce).run s₁ =
    (.ok { batch with state := .cancelled }, s₂) ∧ s.Undone { batch with state := .cancelled } s₂
  /-- So does a height that passes the batch, if it passes no batch from before. -/
  timed_out : ∀ height, timeout < height →
    (∀ other ∈ s.batchesOpen, height ≤ other.timeout) →
      ∃ s₂, (Batch.prune height).run s₁ = (.ok [{ batch with state := .timedOut }], s₂) ∧
        s.Undone { batch with state := .timedOut } s₂
  /-- Then the same batch can be built again, under the next nonce. -/
  rebuilt : ∀ state s₂, state = .cancelled ∨ state = .timedOut →
    s.Undone { batch with state } s₂ → batch.nonce.toNat + 1 < UInt64.size →
      ∃ s₃, (Batch.build block contract count timeout).run s₂ =
        (.ok { batch with nonce := batch.nonce + 1 }, s₃)

/-- Every build is undone by the end of its batch. -/
def Store.BuildsUndo (s : Store) : Prop :=
  ∀ block contract count timeout batch s₁,
    (Batch.build block contract count timeout).run s = (.ok batch, s₁) →
      s.UndoesBuild block contract count timeout batch s₁

open Operation

variable {s s₁ s₂ : Store} {b : Book} {batch closed : Batch} {state : BatchState}
  {contract : RawAddress} {count : Nat} {height : UInt64}

/-! ## Books -/

namespace Book

/-- The book with a record for a batch that has ended. -/
def logged (b : Book) (closed : Batch) : Book :=
  { b with
    batch := Function.update b.batch closed.nonce (some closed)
    lastNonce := some closed.nonce }

section Gathers

variable (filed : b.Filed) (g : b.Gathers contract count batch)

include filed g

/-- The transfers that a batch takes are as they were once they are given back. -/
theorem Gathers.moved_back :
    (b.gather batch).moved batch.ids .unbatched = b.transfer := by
  funext id
  by_cases listed : id ∈ batch.ids
  · obtain ⟨t, kept, waits, _⟩ := g.waiting filed listed
    have taken : (b.gather batch).transfer id = some { t with state := .inBatch batch.nonce } :=
      moved_eq_some.mpr ⟨t, kept, (if_pos listed).symm⟩
    rw [moved, if_pos listed, taken, kept, ← waits]
    rfl
  · rw [moved_of_not_mem listed]
    exact moved_of_not_mem listed

theorem Gathers.places_listed : b.places batch.ids ⊆ b.listed := by
  rintro p ⟨listed, t, kept, rfl⟩
  obtain ⟨u, found, waits, _⟩ := g.waiting filed listed
  obtain rfl := Option.some.inj (kept.symm.trans found)
  exact filed.listed_iff.mpr ⟨t, kept, waits, rfl⟩

/-- A batch that ends right after it was made leaves its record and nothing else. -/
theorem Gathers.disband_gather :
    (b.gather batch).disband batch state = b.logged { batch with state } := by
  have transfers := g.moved_back filed
  have positions : (b.gather batch).places batch.ids = b.places batch.ids :=
    places_of_moved rfl
  have listed : b.listed \ b.places batch.ids ∪ b.places batch.ids = b.listed :=
    Set.sdiff_union_of_subset (g.places_listed filed)
  have free : b.openNonce batch.contract.raw = none := g.own_contract filed ▸ g.free
  apply Book.ext
  case transfer => exact transfers
  case listed =>
    show b.listed \ b.places batch.ids ∪ (b.gather batch).places batch.ids = b.listed
    rw [positions, listed]
  case batch => exact Function.update_idem ..
  case openNonce =>
    refine (Function.update_idem ..).trans ?_
    rw [← free]
    exact Function.update_eq_self ..
  all_goals rfl

end Gathers

/-- A batch that has ended can be entered in the records under the next nonce. -/
theorem Filed.logged (filed : b.Filed) (own_nonce : closed.nonce = b.last + 1)
    (room : b.last.toNat + 1 < UInt64.size) (ended : closed.state ≠ .open) :
    (b.logged closed).Filed where
  transfer_id := filed.transfer_id
  batch_nonce found := by
    rcases update_eq_some.mp found with ⟨rfl, rfl⟩ | ⟨_, recorded⟩
    · rfl
    · exact filed.batch_nonce recorded
  spelled := filed.spelled
  positive := filed.positive
  first_id := filed.first_id
  fresh := filed.fresh
  numbered := filed.numbered_next own_nonce room
  listed_iff := filed.listed_iff
  open_iff := by
    intro contract n
    rw [show (b.logged closed).openNonce = b.openNonce from rfl, filed.open_iff]
    constructor
    · intro ⟨c, recorded, opened, own⟩
      have old : n ≠ closed.nonce := by
        rintro rfl
        rw [filed.not_kept_batch own_nonce room] at recorded
        cases recorded
      exact ⟨c, update_eq_some.mpr (.inr ⟨old, recorded⟩), opened, own⟩
    · intro ⟨c, found, opened, own⟩
      rcases update_eq_some.mp found with ⟨_, rfl⟩ | ⟨_, recorded⟩
      · exact absurd opened ended
      · exact ⟨c, recorded, opened, own⟩

/-- The same batch can be gathered again, under the next nonce. -/
theorem Gathers.again (g : b.Gathers contract count batch)
    (room : batch.nonce.toNat + 1 < UInt64.size) :
    (b.logged { batch with state }).Gathers contract count
      { batch with nonce := batch.nonce + 1 } where
  free := g.free
  ids := g.ids
  spelled := g.spelled
  own_nonce := rfl
  room := room
  opened := g.opened

/-- A height that passes a new batch and none from before times out just that one. -/
theorem Gathers.expires (g : b.Gathers contract count batch) (passed : batch.timeout < height)
    (others : b.LastsTo height) : (b.gather batch).Expires height [batch] where
  ascending := List.pairwise_singleton _ _
  mem_iff := by
    intro c
    rw [List.mem_singleton]
    constructor
    · rintro rfl
      exact ⟨Function.update_self .., g.opened, passed⟩
    · intro ⟨found, opened, below⟩
      rcases update_eq_some.mp found with ⟨_, same⟩ | ⟨_, recorded⟩
      · exact same
      · exact absurd below (UInt64.not_lt.mpr (others _ c recorded opened))

end Book

/-! ## Stores -/

namespace Store

/-- The record and the counter are all that is written. -/
theorem undone_iff :
    s.Undone closed s₂ ↔ s₂ = (s.saveBatch closed).saveWord .lastNonce closed.nonce := by
  have apart : (Cell.batch closed.nonce).key ≠ Cell.lastNonce.key :=
    fun same => nomatch Cell.key_inj.mp same
  have rows (key : Bytes) : ((s.saveBatch closed).saveWord .lastNonce closed.nonce).get? key =
      if key = Cell.lastNonce.key then some (Cell.word closed.nonce)
      else if key = (Cell.batch closed.nonce).key then some (Codec.bytes closed)
      else s.get? key := by
    rw [saveWord, saveBatch, save, get?_insert, get?_insert]
  constructor
  · intro undone
    refine ext_get? fun key => ?_
    rw [rows]
    split
    next counter => rw [counter, undone.counter]
    next notCounter =>
      split
      next record => rw [record, undone.record]
      next notRecord => exact undone.rest key notRecord notCounter
  · rintro rfl
    constructor
    case record => rw [rows, if_neg apart, if_pos rfl]
    case counter => rw [rows, if_pos rfl]
    case rest =>
      intro key notRecord notCounter
      rw [rows, if_neg notCounter, if_neg notRecord]

namespace Keeps

theorem logged (h : s.Keeps b) (closed : Batch) :
    ((s.saveBatch closed).saveWord .lastNonce closed.nonce).Keeps (b.logged closed) :=
  (h.saveBatch closed).saveLastNonce closed.nonce

theorem undone_iff (h : s.Keeps b) : s.Undone closed s₂ ↔ s₂.Keeps (b.logged closed) := by
  rw [Store.undone_iff]
  exact (h.logged closed).eq_iff

/-- A new batch can be given back, which leaves the store from before it was built. -/
theorem returned (h : s.Keeps b) (filed : b.Filed) (g : b.Gathers contract count batch)
    (keeps₁ : s₁.Keeps (b.gather batch)) (state : BatchState) :
    ∃ s₂, run (Batch.returnToPool batch state) s₁ = (.ok { batch with state }, s₂) ∧
      s.Undone { batch with state } s₂ := by
  have kept : ∀ id ∈ batch.ids, ∃ t, (b.gather batch).transfer id = some t ∧ t.id = id := by
    intro id listed
    obtain ⟨t, found, _⟩ := g.waiting filed listed
    have own_id : t.id = id := filed.transfer_id found
    exact ⟨_, Book.moved_eq_some.mpr ⟨t, found, (if_pos listed).symm⟩, own_id⟩
  obtain ⟨s₂, done, keeps₂⟩ := Batch.run_returnToPool_of_kept state keeps₁ kept
  rw [g.disband_gather filed] at keeps₂
  exact ⟨s₂, done, h.undone_iff.mpr keeps₂⟩

/-- The end of a batch undoes its build, whatever was built. -/
theorem undoes_build (h : s.Keeps b) (filed : b.Filed) {block timeout : UInt64} {contract : Address}
    (built : run (Batch.build block contract count timeout) s = (.ok batch, s₁)) :
    s.UndoesBuild block contract count timeout batch s₁ := by
  obtain ⟨gathers, rfl, rfl, keeps₁⟩ := (Batch.run_build_eq_ok h filed).mp built
  constructor
  case cancelled =>
    obtain ⟨s₂, done, undone⟩ := h.returned filed gathers keeps₁ .cancelled
    have recorded : (b.gather batch).batch batch.nonce = some batch := Function.update_self ..
    have loaded := (Batch.run_loadOpen_eq_ok keeps₁).mpr ⟨recorded, gathers.opened, rfl⟩
    exact ⟨s₂, run_bind_eq_ok.mpr ⟨batch, s₁, loaded, done⟩, undone⟩
  case timed_out =>
    intro height passed others
    have lasting : b.LastsTo height := by
      intro n other found opened
      obtain rfl := filed.batch_nonce found
      exact others other ((mem_batchesOpen h).mpr ⟨found, opened⟩)
    have alone := gathers.expires passed lasting
    obtain ⟨bs, expires, prunes⟩ := Batch.exists_expires keeps₁ (filed.gather gathers) height
    obtain rfl := expires.unique alone
    obtain ⟨s₂, done, undone⟩ := h.returned filed gathers keeps₁ .timedOut
    refine ⟨s₂, prunes.trans ?_, undone⟩
    rw [List.mapM_cons]
    exact run_bind_eq_ok.mpr ⟨_, s₂, done, rfl⟩
  case rebuilt =>
    intro state s₂ ends undone room
    have keeps₂ := h.undone_iff.mp undone
    have ended : state ≠ .open := by rcases ends with rfl | rfl <;> decide
    have filed₂ : (b.logged { batch with state }).Filed :=
      filed.logged gathers.own_nonce gathers.room ended
    have again : (b.logged { batch with state }).Gathers _ _ _ := gathers.again room
    obtain ⟨s₃, keeps₃⟩ := Batch.exists_keeps_gather keeps₂ filed₂ again
    exact ⟨s₃, (Batch.run_build_eq_ok keeps₂ filed₂).mpr ⟨again, rfl, rfl, keeps₃⟩⟩

end Keeps

end Store

/-- In every reachable store the end of a batch undoes its build. -/
theorem Reachable.buildsUndo (h : Reachable s) : s.BuildsUndo :=
  fun _ _ _ _ _ _ built => h.keeps.undoes_build h.sound.filed built

/-- After the first height a batch of the first send can be built, cancelled and built again. -/
theorem Chain.buildsUndo_after_firstHeight : ∃ s, Reachable s ∧ s.BuildsUndo ∧
    ∃ count timeout batch s₁ s₂ s₃, batch.ids = [1] ∧
      (Batch.build 5 .zero count timeout).run s = (.ok batch, s₁) ∧
      (Batch.cancel batch.nonce).run s₁ = (.ok { batch with state := .cancelled }, s₂) ∧
      (Batch.build 5 .zero count timeout).run s₂ = (.ok { batch with nonce := 2 }, s₃) := by
  obtain ⟨c, bounds, _, keeps⟩ := exists_firstHeight
  have reached := reachable_firstSend.call firstHeight
  have filed := reached.sound.filed
  rw [keeps.book_eq] at filed
  have gathers := gathers_firstBatch bounds
  obtain ⟨s₁, kept⟩ := Batch.exists_keeps_gather keeps filed gathers
  have built := (Batch.run_build_eq_ok keeps filed).mpr ⟨gathers, rfl, rfl, kept⟩
  have undoes := reached.buildsUndo
  have undone := undoes _ _ _ _ _ _ built
  obtain ⟨s₂, cancelled, same⟩ := undone.cancelled
  have room : (1 : UInt64).toNat + 1 < UInt64.size := by decide
  obtain ⟨s₃, again⟩ := undone.rebuilt .cancelled s₂ (.inl rfl) same room
  exact ⟨_, reached, undoes, _, _, firstBatch c, s₁, s₂, s₃, rfl, built, cancelled, again⟩

end BridgePool
