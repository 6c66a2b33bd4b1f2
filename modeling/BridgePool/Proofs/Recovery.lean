import BridgePool.Proofs.Book.Sent
import BridgePool.Proofs.Book.Timeouts
import BridgePool.Proofs.Indices
import BridgePool.Proofs.Membership

/-!
# Recovery without the administrator

Once a block ends at a height that has passed the batch of a transfer, the sender can cancel the
send and is paid back what it is worth (`Store.Keeps.recovers_iff`). No height passes the last one
there is, so a transfer can be recovered in this way exactly when it is in no open batch that times
out at the last height (`Reachable.recoverable_iff`). Such a batch is made when the configured
number of blocks reaches that far (`Chain.not_recovers_requested`).
-/

namespace BridgePool

variable {s : Store} {b : Book} {id : UInt64} {t : Transfer} {height : UInt64}

namespace Store

/-- Its sender can cancel the send, without any coins, and is paid back the amount and the fee in
one coin. -/
def PaysBack (s : Store) (id : UInt64) (t : Transfer) : Prop :=
  ∀ env, ∃ r s' coin,
    (Call.command env ⟨t.sender, []⟩ (.cancelSend id)).run s = (.ok r, s') ∧
      r.messages = [.send t.sender [coin]] ∧ coin.denom = t.token.denom ∧
        coin.amount.val = t.token.amount.val + t.fee.amount.val

/-- A block can end at this height, and then the transfer is paid back. -/
def Recovers (s : Store) (id : UInt64) (t : Transfer) (height : UInt64) : Prop :=
  ∃ r s', (Call.hostEvent (.endBlock height)).run s = (.ok r, s') ∧ s'.PaysBack id t

/-- The transfer is in an open batch that times out at the last height there is. -/
def Shelves (s : Store) (id : UInt64) : Prop :=
  ∃ batch ∈ s.batchesOpen, id ∈ batch.ids ∧ batch.timeout.toNat = UInt64.size - 1

end Store

/-! ## Recovery at a height -/

/-- A transfer waits exactly when no open batch lists it. -/
theorem Book.Sound.waits_iff (h : b.Sound) (kept : b.transfer id = some t) :
    t.state = .unbatched ↔
      ∀ n batch, b.batch n = some batch → batch.state = .open → id ∉ batch.ids := by
  have carried {n} := h.carried_iff (n := n) kept
  constructor
  · intro waits n batch recorded opened listed
    have state := carried.mpr ⟨batch, recorded, opened, listed⟩
    rw [waits] at state
    cases state
  · intro free
    cases state : t.state with
    | unbatched => rfl
    | inBatch n =>
        obtain ⟨batch, recorded, opened, listed⟩ := carried.mp state
        exact absurd listed (free n batch recorded opened)

/-- A transfer can be paid back exactly when it waits. -/
theorem Store.Keeps.paysBack_iff (h : s.Keeps b) (sound : b.Sound)
    (kept : b.transfer id = some t) : s.PaysBack id t ↔ t.state = .unbatched := by
  constructor
  · intro cancels
    obtain ⟨_, _, _, ran, _⟩ := cancels ⟨0, ⟨0⟩⟩
    obtain ⟨u, found, _, waits, _⟩ :=
      (Bridge.run_cancelSend_eq_ok h sound).mp (Operation.run_atomic_eq_ok.mp ran)
    rw [kept, Option.some.injEq] at found
    exact found ▸ waits
  · intro waits env
    obtain ⟨s', stored⟩ := Pool.exists_keeps_refund h sound kept
    have done : (Bridge.cancelSend ⟨t.sender, []⟩ id).run s = (.ok _, s') :=
      (Bridge.run_cancelSend_eq_ok h sound).mpr ⟨t, kept, rfl, waits, rfl, rfl, stored⟩
    exact ⟨_, s', t.coin, Operation.run_atomic_eq_ok.mpr done, rfl, rfl,
      Transfer.coin_amount (sound.fits kept)⟩

/-- A transfer can be recovered at a height that has passed the open batch that lists it. -/
theorem Store.Keeps.recovers_iff (h : s.Keeps b) (sound : b.Sound)
    (kept : b.transfer id = some t) :
    s.Recovers id t height ↔ ∀ n batch, b.batch n = some batch → batch.state = .open →
      id ∈ batch.ids → batch.timeout < max (b.height.getD 0) height := by
  obtain ⟨now, bs, s', b', rises, expires, done, keeps, moves⟩ :=
    Bridge.run_endBlock h sound height
  have ran : (Call.hostEvent (.endBlock height)).run s = (.ok _, s') :=
    Operation.run_atomic_eq_ok.mpr done
  have sound' := sound.moves moves
  obtain ⟨_, batches⟩ := moves.pruned sound expires
  -- the record is there after the block, but for its state
  obtain ⟨sent, _⟩ := moves.sent_eq (by simp [Deed.LeavesSends])
  obtain ⟨state, found⟩ := Book.transfer_of_sent_eq (congrFun sent id) kept
  have paysBack := (keeps.paysBack_iff sound' found).trans (sound'.waits_iff found)
  have recovers : s.Recovers id t height ↔
      ∀ n batch, b'.batch n = some batch → batch.state = .open → id ∉ batch.ids := by
    rw [← paysBack]
    constructor
    · rintro ⟨r, s'', ran', pays⟩
      rw [ran] at ran'
      obtain ⟨_, rfl⟩ := Prod.mk.inj ran'
      exact pays
    · exact fun pays => ⟨_, s', ran, pays⟩
  rw [recovers, ← rises]
  constructor
  · intro free n batch recorded opened listed
    -- a batch that the height has not passed is still open
    by_contra stays
    have pruned : batch.pruned now = batch := if_neg fun due => stays due.2
    have recorded' : b'.batch n = some batch := by
      rw [batches, recorded, Option.map_some, pruned]
    exact free n batch recorded' opened listed
  · intro passed n batch recorded' opened listed
    rw [batches] at recorded'
    obtain ⟨old, recorded, rfl⟩ := Option.map_eq_some_iff.mp recorded'
    obtain ⟨same, reached⟩ := Batch.of_open_pruned opened
    rw [same] at opened listed
    exact UInt64.not_lt.mpr reached (passed n old recorded opened listed)

/-! ## Recovery at some height -/

theorem Store.Keeps.shelves_iff (h : s.Keeps b) (sound : b.Sound) :
    s.Shelves id ↔ ∃ n batch, b.batch n = some batch ∧ batch.state = .open ∧ id ∈ batch.ids ∧
      batch.timeout.toNat = UInt64.size - 1 := by
  constructor
  · rintro ⟨batch, mem, listed, last⟩
    obtain ⟨recorded, opened⟩ := (mem_batchesOpen h).mp mem
    exact ⟨_, batch, recorded, opened, listed, last⟩
  · rintro ⟨n, batch, recorded, opened, listed, last⟩
    have own : b.batch batch.nonce = some batch := sound.batch_nonce recorded ▸ recorded
    exact ⟨batch, (mem_batchesOpen h).mpr ⟨own, opened⟩, listed, last⟩

/-- Some height passes every batch that lists the transfer, unless one of them lasts to the end. -/
theorem Store.Keeps.exists_recovers_iff (h : s.Keeps b) (sound : b.Sound)
    (kept : b.transfer id = some t) : (∃ height, s.Recovers id t height) ↔ ¬ s.Shelves id := by
  simp only [h.recovers_iff sound kept, h.shelves_iff sound]
  constructor
  · rintro ⟨height, passed⟩ ⟨n, batch, recorded, opened, listed, last⟩
    have below := passed n batch recorded opened listed
    rw [UInt64.lt_iff_toNat_lt, last] at below
    have bound : (max (b.height.getD 0) height).toNat < UInt64.size := UInt64.toNat_lt _
    omega
  · intro passes
    -- the last height passes whatever does not last to it
    refine ⟨UInt64.ofNat (UInt64.size - 1), fun n batch recorded opened listed => ?_⟩
    have reached : UInt64.ofNat (UInt64.size - 1) ≤ max (b.height.getD 0) _ := Std.right_le_max
    have early : batch.timeout.toNat ≠ UInt64.size - 1 :=
      fun last => passes ⟨n, batch, recorded, opened, listed, last⟩
    have bound : batch.timeout.toNat < UInt64.size := UInt64.toNat_lt _
    rw [UInt64.le_iff_toNat_le, UInt64.toNat_ofNat_of_lt' (by decide)] at reached
    rw [UInt64.lt_iff_toNat_lt]
    omega

/-- Without the administrator, a transfer can be recovered exactly when it is in no open batch that
times out at the last height there is. -/
theorem Reachable.recoverable_iff (h : Reachable s) (kept : s.transfer? id = .ok (some t)) :
    (∃ height, s.Recovers id t height) ↔ ¬ s.Shelves id := by
  rw [h.keeps.transfer?, Except.ok.injEq] at kept
  exact h.keeps.exists_recovers_iff h.sound kept

/-! ## A batch that no height passes -/

namespace Chain

/-- The parameters that `plainSetup` leads to. -/
def plainConfig : Config :=
  ⟨"admin", false, Config.defaultBatchSize, Config.defaultTimeoutBlocks, .ofOption none⟩

theorem keeps_plainStore : plainStore.Keeps (.founded plainConfig) :=
  ((Book.keeps_empty.saveRelease _).saveConfig _).saveHeight 0

theorem plainConfig_inBounds : plainConfig.InBounds :=
  ⟨by decide, by decide, by decide⟩

/-- A setup whose batches last as long as heights can be counted. -/
def lastingSetup : Setup :=
  ⟨"admin", none, some 18446744073709551615, none⟩

/-- The parameters that it leads to. -/
def lastingConfig : Config :=
  { plainConfig with timeoutBlocks := 18446744073709551615 }

/-- The store that it makes. -/
def lastingStore : Store :=
  ((Bridge.setUp lastingSetup).run .empty).2

theorem founded_lastingStore : Founded lastingSetup lastingStore :=
  ⟨_, rfl⟩

theorem keeps_lastingStore : lastingStore.Keeps (.founded lastingConfig) :=
  ((Book.keeps_empty.saveRelease _).saveConfig _).saveHeight 0

theorem lastingConfig_inBounds : lastingConfig.InBounds :=
  ⟨by decide, by decide, by decide⟩

/-- The only batch is the first one, and lists the first send. -/
theorem shelves_requested_iff {c : Config} (reached : Reachable s)
    (keeps : s.Keeps ((firstBook c).gather (firstBatch c))) :
    s.Shelves 1 ↔ (firstBatch c).timeout.toNat = UInt64.size - 1 := by
  have sound := reached.sound
  rw [keeps.book_eq] at sound
  rw [keeps.shelves_iff sound]
  constructor
  · rintro ⟨n, batch, recorded, _, _, last⟩
    rcases update_eq_some.mp recorded with ⟨_, rfl⟩ | ⟨_, earlier⟩
    · exact last
    · cases earlier
  · exact fun last => ⟨1, firstBatch c, rfl, rfl, List.mem_singleton_self 1, last⟩

/-- The first send can be recovered from its batch under usual parameters. -/
theorem recoverable_after_firstRequest : Reachable (requested plainStore) ∧
    ∃ t, (requested plainStore).transfer? 1 = .ok (some t) ∧ t.state = .inBatch 1 ∧
      ∃ height, (requested plainStore).Recovers 1 t height := by
  obtain ⟨reached, keeps⟩ := keeps_requested plainConfig_inBounds rfl
    (.founded founded_plainStore) keeps_plainStore
  have kept := keeps.transfer? 1
  refine ⟨reached, _, kept, rfl, (reached.recoverable_iff kept).mpr ?_⟩
  rw [shelves_requested_iff reached keeps]
  decide

/-- When its batch lasts as long as heights can be counted, no height recovers the first send. -/
theorem not_recovers_requested : Reachable (requested lastingStore) ∧
    ∃ t, (requested lastingStore).transfer? 1 = .ok (some t) ∧
      ∀ height, ¬ (requested lastingStore).Recovers 1 t height := by
  obtain ⟨reached, keeps⟩ := keeps_requested lastingConfig_inBounds rfl
    (.founded founded_lastingStore) keeps_lastingStore
  have sound := reached.sound
  rw [keeps.book_eq] at sound
  refine ⟨reached, _, keeps.transfer? 1, fun height recovers => ?_⟩
  have free := (keeps.exists_recovers_iff sound rfl).mp ⟨height, recovers⟩
  exact free ((shelves_requested_iff reached keeps).mpr (by decide))

end Chain

end BridgePool
