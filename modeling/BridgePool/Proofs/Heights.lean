import BridgePool.Proofs.Book.Timeouts
import BridgePool.Proofs.Events
import BridgePool.Proofs.Indices
import BridgePool.Proofs.Membership
import BridgePool.Proofs.Run

/-!
# Heights and timeouts along a run

The recorded height of the far chain is the highest that the run has reported. No open batch lies
below it, and the end of a block times out just those that the new height passes, and reports them
in the order of their contracts (`Run.heightsExact`).
-/

namespace BridgePool

variable {s : Store} {b : Book}

/-- What the end of a block at a recorded height makes of `s`, and what it answers. -/
structure Store.EndsBlock (s : Store) (now : UInt64) (r : Response) (s' : Store) : Prop where
  recorded : s'.recordedHeight? = .ok (some now)
  /-- The open batches below the height are timed out; otherwise the batches stay as they were. -/
  batches : ∀ n, ∃ row, s.batch? n = .ok row ∧ s'.batch? n = .ok (row.map (Batch.pruned now))
  /-- Those batches are reported once each, in ascending order of their contracts. -/
  reported : ∃ bs : List Batch,
    (∀ batch, batch ∈ bs ↔ batch ∈ s.batchesOpen ∧ batch.timeout < now) ∧
    bs.Pairwise (fun c d => c.contract.raw.val < d.contract.raw.val) ∧ r.TimesOut now bs
  survive : ∀ batch ∈ s'.batchesOpen, now ≤ batch.timeout

namespace Chain

/-- The heights that the ends of blocks reported, from the first to the last. -/
def heights (past : List Moment) : List UInt64 :=
  past.filterMap (·.call.height?)

/-- The highest of them; zero before the first. -/
def highest (past : List Moment) : UInt64 :=
  (heights past).foldl max 0

/-- How the recorded height and the timeouts of the batches go along a run. -/
structure HeightsExact (past : List Moment) (s : Store) : Prop where
  /-- The highest height so far is recorded. -/
  recorded : s.recordedHeight? = .ok (some (highest past))
  /-- No open batch lies below it. -/
  timely : ∀ batch ∈ s.batchesOpen, highest past ≤ batch.timeout
  /-- A batch that is made now does not lie below it either. -/
  fresh : ∀ env caller text r s',
    (Call.command env caller (.requestBatch text)).run s = (.ok r, s') →
      ∃ batch ∈ s'.batchesOpen, s.batch? batch.nonce = .ok none ∧ highest past ≤ batch.timeout
  /-- A block can end at any height, and moves the recorded height up to it. -/
  end_block : ∀ height, ∃ r s', (Call.hostEvent (.endBlock height)).run s = (.ok r, s') ∧
    s.EndsBlock (max (highest past) height) r s'

end Chain

/-! ## One call -/

/-- A call raises the recorded height to the one that it reports, if any, and keeps the book
timely. -/
theorem Reachable.raises (h : Reachable s) (timely : s.book.Timely) (c : Call) :
    (c.run s).2.book.Timely ∧ (c.run s).2.book.height.getD 0 =
      c.height?.elim (s.book.height.getD 0) (max (s.book.height.getD 0)) := by
  refine h.of_outcome (P := fun b' _ => b'.Timely ∧ b'.height.getD 0 =
    c.height?.elim (s.book.height.getD 0) (max (s.book.height.getD 0))) c ?_ ?_
  · intro fault ran
    -- the end of a block never stops, so a call that does reports no height
    have silent : c.height? = none := by
      cases c with
      | hostEvent event =>
          cases event with
          | endBlock height =>
              obtain ⟨_, _, _, _, _, _, done, _⟩ := Bridge.run_endBlock h.keeps h.sound height
              have succeeds := Operation.run_atomic_eq_ok.mpr done
              cases (Prod.mk.inj (ran.symm.trans succeeds)).1
          | batchExecuted => rfl
      | _ => rfl
    exact ⟨timely, by rw [silent, Option.elim_none]⟩
  · intro r ds b' outcome moves
    exact ⟨outcome.timely moves h.sound timely, outcome.height_eq moves h.sound⟩

namespace Store.Keeps

theorem recordedHeight_eq (h : s.Keeps b) (sound : b.Sound) :
    s.recordedHeight? = .ok (some (b.height.getD 0)) := by
  obtain ⟨height, recorded⟩ := Option.isSome_iff_exists.mp sound.height_some
  rw [h.recordedHeight?, recorded, Option.getD_some]

/-- The end of a block, at whatever height it is reported. -/
theorem ends_block (h : s.Keeps b) (sound : b.Sound) (timely : b.Timely) (height : UInt64) :
    ∃ r s', (Call.hostEvent (.endBlock height)).run s = (.ok r, s') ∧
      s.EndsBlock (max (b.height.getD 0) height) r s' := by
  obtain ⟨now, bs, s', b', rises, expires, done, keeps, moves⟩ :=
    Bridge.run_endBlock h sound height
  have after := (Outcome.endBlock rises expires).timely moves sound timely
  obtain ⟨recorded, batches⟩ := moves.pruned sound expires
  subst rises
  refine ⟨_, s', Operation.run_atomic_eq_ok.mpr done, ?_⟩
  constructor
  case recorded => rw [keeps.recordedHeight?, recorded]
  case batches => exact fun n => ⟨_, h.batch? n, by rw [keeps.batch?, batches]⟩
  case reported =>
    refine ⟨bs, fun batch => ?_, expires.ascending, expires.timesOut sound.toGrouped⟩
    rw [expires.mem_iff, mem_batchesOpen h]
    exact and_assoc.symm
  case survive =>
    intro batch mem
    obtain ⟨found, opened⟩ := (mem_batchesOpen keeps).mp mem
    have reached := after _ batch found opened
    rwa [recorded, Option.getD_some] at reached

/-- A request that succeeds makes a batch that does not lie below the recorded height. -/
theorem fresh_batch (h : s.Keeps b) (sound : b.Sound) {env : Env} {caller : Caller}
    {text : String} {r : Response} {s' : Store}
    (done : (Call.command env caller (.requestBatch text)).run s = (.ok r, s')) :
    ∃ batch ∈ s'.batchesOpen, s.batch? batch.nonce = .ok none ∧
      b.height.getD 0 ≤ batch.timeout := by
  obtain ⟨c, contract, batch, _, _, _, _, gathers, timeout, _, _, keeps⟩ :=
    (Bridge.run_requestBatch_eq_ok h sound).mp (Operation.run_atomic_eq_ok.mp done)
  have recorded : (b.gather batch).batch batch.nonce = some batch :=
    update_eq_some.mpr (.inl ⟨rfl, rfl⟩)
  refine ⟨batch, (mem_batchesOpen keeps).mpr ⟨recorded, gathers.opened⟩, ?_, ?_⟩
  · rw [h.batch?, gathers.new_batch sound.filed]
  · exact timeout ▸ Bridge.le_saturatingAdd _ _

end Store.Keeps

/-! ## Runs -/

namespace Chain

variable {opening : Response} {past : List Moment}

theorem highest_append (past : List Moment) (s : Store) (c : Call) :
    highest (past ++ [.of s c]) = c.height?.elim (highest past) (max (highest past)) := by
  rw [highest, heights, List.filterMap_append, List.foldl_append]
  show (List.filterMap _ [_]).foldl max (highest past) = _
  cases reported : c.height? <;> simp [Moment.of, reported]

/-- The highest height of a run is recorded, and no open batch lies below it. -/
theorem Run.timely (h : Run opening past s) :
    s.book.height.getD 0 = highest past ∧ s.book.Timely := by
  refine h.invariant (I := fun past _ b => b.height.getD 0 = highest past ∧ b.Timely) ?_ ?_
  · exact fun _ _ _ => ⟨rfl, fun _ _ found => nomatch found⟩
  · rintro past s c reached ⟨same, timely⟩
    obtain ⟨timely', raised⟩ := reached.raises timely c
    rw [highest_append, raised, same]
    exact ⟨rfl, timely'⟩

/-- Heights and timeouts along every run. -/
theorem Run.heightsExact (h : Run opening past s) : HeightsExact past s := by
  have keeps := h.reachable.keeps
  have sound := h.reachable.sound
  obtain ⟨same, timely⟩ := h.timely
  constructor <;> rw [← same]
  case recorded => exact keeps.recordedHeight_eq sound
  case timely =>
    intro batch mem
    obtain ⟨found, opened⟩ := (Store.mem_batchesOpen keeps).mp mem
    exact timely _ batch found opened
  case fresh => exact fun _ _ _ _ _ done => keeps.fresh_batch sound done
  case end_block => exact keeps.ends_block sound timely

/-! ## A first batch -/

/-- The first send, the first height and the first request. -/
def firstMomentsOf (s : Store) : List Moment :=
  [.of s firstSend, .of (firstSend.run s).2 firstHeight,
    .of (firstHeight.run (firstSend.run s).2).2 firstRequest]

theorem Run.requested (h : Run opening [] s) : Run opening (firstMomentsOf s) (requested s) :=
  ((h.call firstSend).call firstHeight).call firstRequest

theorem highest_firstMomentsOf (s : Store) : highest (firstMomentsOf s) = 7 :=
  rfl

/-- After the first request the seventh height is recorded, and the first batch lasts to it. -/
theorem heightsExact_after_firstRequest : ∃ opening,
    Run opening (firstMomentsOf plainStore) (requested plainStore) ∧
      HeightsExact (firstMomentsOf plainStore) (requested plainStore) ∧
        ∃ batch ∈ (requested plainStore).batchesOpen, 7 ≤ batch.timeout := by
  obtain ⟨opening, done⟩ := founded_plainStore
  obtain ⟨c, bounds, active, _, keeps⟩ := Bridge.run_setUp_ok done
  have run := (Run.founded done).requested
  have along := run.heightsExact
  have gathered := (keeps_requested bounds active (.founded founded_plainStore) keeps).2
  have opened : firstBatch c ∈ (requested plainStore).batchesOpen :=
    (Store.mem_batchesOpen gathered).mpr ⟨rfl, rfl⟩
  have reached := along.timely _ opened
  rw [highest_firstMomentsOf] at reached
  exact ⟨opening, run, along, _, opened, reached⟩

end Chain

end BridgePool
