import BridgePool.Proofs.Book.Commute
import BridgePool.Proofs.Recovery
import BridgePool.Proofs.Replica

/-!
# Ends of blocks come to one

Blocks that end one after the other, at whatever heights and in whatever order, leave the store that
one block leaves which ends at the highest of the heights, and time out the same batches, each once
(`Reachable.blocksMerge`). So a height that is reported again changes nothing.

* `Book.EndsAt.merge` — two ends of blocks of a book are one
* `Store.Keeps.ends_merge` — two ends of blocks of a store are one
* `Reachable.ends_as_one` — from these, any number of them, by induction
-/

namespace BridgePool

open Operation

/-- The call that a block ends at a height. -/
def Call.blockEnd (height : UInt64) : Call :=
  .hostEvent (.endBlock height)

/-- Blocks that end at some heights one after the other, held against one that ends at `top`. -/
structure Store.EndsAsOne (s : Store) (heights : List UInt64) (top : UInt64) : Prop where
  store : (Chain.play s (heights.map .blockEnd)).2 = ((Call.blockEnd top).run s).2
  answered : ∀ e ∈ (Chain.play s (heights.map .blockEnd)).1, ∃ r, e.answer = .ok r
  /-- The one times out the open batches that the height it records passes. The others report these,
  each of them once. -/
  reported : ∃ now bs r, top ≤ now ∧ ((Call.blockEnd top).run s).1 = .ok r ∧ r.TimesOut now bs ∧
    (∀ batch, batch ∈ bs ↔ batch ∈ s.batchesOpen ∧ batch.timeout < now) ∧
    (bs.map (·.nonce)).Nodup ∧
      ((Chain.play s (heights.map .blockEnd)).1.flatMap (·.events)).Perm r.events ∧
        (((Chain.play s (heights.map .blockEnd)).1.flatMap (·.events)).map Event.timedOut?).Perm
          (bs.map some)

/-- How ends of blocks come together. -/
structure Store.BlocksMerge (s : Store) : Prop where
  /-- Any ends of blocks are one at the highest of their heights. -/
  as_one : ∀ heights top, heights.max? = some top → s.EndsAsOne heights top
  /-- A height that is reported again, or a lower one, changes nothing and times out nothing. -/
  again : ∀ height lower, lower ≤ height → ∃ now bs r r' s',
    (Call.blockEnd height).run s = (.ok r, s') ∧ r.TimesOut now bs ∧
      (Call.blockEnd lower).run s' = (.ok r', s') ∧ r'.TimesOut now [] ∧
        (Batch.prune lower).run s' = (.ok [], s')
  /-- Nor is anything left to time out where batches were timed out before. -/
  prune_again : ∀ height lower, lower ≤ height → ∃ bs s',
    (Batch.prune height).run s = (.ok bs, s') ∧ (Batch.prune lower).run s' = (.ok [], s')

variable {s s' : Store} {b b₁ b₂ b' : Book} {now later lower : UInt64} {bs cs ds : List Batch}

/-! ## Books -/

/-- What the end of a block at a height that is recorded makes of a book. -/
structure Book.EndsAt (b : Book) (now : UInt64) (bs : List Batch) (b' : Book) : Prop where
  expires : b.Expires now bs
  moves : Moves b (.observe now :: bs.map (.disband · .timedOut)) b'

/-- What a height passes is timed out at every higher one as it was at that height. -/
theorem Batch.pruned_pruned (batch : Batch) (rises : now ≤ later) :
    (batch.pruned now).pruned later = batch.pruned later := by
  by_cases due : batch.state = .open ∧ batch.timeout < now
  · have passed : batch.state = .open ∧ batch.timeout < later :=
      ⟨due.1, UInt64.lt_of_lt_of_le due.2 rises⟩
    have ended : batch.pruned now = { batch with state := .timedOut } := if_pos due
    rw [ended, pruned, pruned, if_pos passed]
    exact if_neg fun again => BatchState.noConfusion again.1
  · have stays : batch.pruned now = batch := if_neg due
    rw [stays]

/-- What a higher height passes was passed before, or is passed after that. -/
theorem Book.Expires.perm_append (first : b.Expires now bs)
    (after : ∀ n, b₁.batch n = (b.batch n).map (Batch.pruned now)) (second : b₁.Expires later cs)
    (whole : b.Expires later ds) (rises : now ≤ later) : (bs ++ cs).Perm ds := by
  -- what is left to the second height is open after the first
  have left : ∀ batch, batch ∈ cs ↔ b.batch batch.nonce = some batch ∧ batch.state = .open ∧
      now ≤ batch.timeout ∧ batch.timeout < later := by
    intro batch
    rw [second.mem_iff, after]
    constructor
    · intro ⟨found, opened, below⟩
      obtain ⟨old, recorded, rfl⟩ := Option.map_eq_some_iff.mp found
      obtain ⟨same, reached⟩ := Batch.of_open_pruned opened
      rw [same] at recorded opened below ⊢
      exact ⟨recorded, opened, reached, below⟩
    · intro ⟨recorded, opened, reached, below⟩
      have stays : batch.pruned now = batch := if_neg fun due => UInt64.not_lt.mpr reached due.2
      exact ⟨by rw [recorded, Option.map_some, stays], opened, below⟩
  have disjoint : bs.Disjoint cs := fun batch early late =>
    UInt64.not_lt.mpr ((left batch).mp late).2.2.1 (first.mem_iff.mp early).2.2
  have nodup : (bs ++ cs).Nodup :=
    first.nodup_nonces.of_map.append second.nodup_nonces.of_map disjoint
  refine (List.perm_ext_iff_of_nodup nodup whole.nodup_nonces.of_map).mpr fun batch => ?_
  rw [List.mem_append, first.mem_iff, left, whole.mem_iff]
  constructor
  · rintro (⟨recorded, opened, below⟩ | ⟨recorded, opened, _, below⟩)
    · exact ⟨recorded, opened, UInt64.lt_of_lt_of_le below rises⟩
    · exact ⟨recorded, opened, below⟩
  · intro ⟨recorded, opened, below⟩
    by_cases early : batch.timeout < now
    · exact .inl ⟨recorded, opened, early⟩
    · exact .inr ⟨recorded, opened, UInt64.not_lt.mp early, below⟩

namespace Book.EndsAt

theorem sound_after (h : b.EndsAt now bs b') (sound : b.Sound) : b'.Sound :=
  sound.moves h.moves

theorem height_eq (h : b.EndsAt now bs b') (sound : b.Sound) : b'.height = some now :=
  (h.moves.pruned sound h.expires).1

theorem batch_eq (h : b.EndsAt now bs b') (sound : b.Sound) (n : UInt64) :
    b'.batch n = (b.batch n).map (Batch.pruned now) :=
  (h.moves.pruned sound h.expires).2 n

theorem transfer_eq (h : b.EndsAt now bs b') :
    b'.transfer = b.moved (bs.flatMap (·.ids)) .unbatched := by
  cases h.moves with
  | next observes later =>
      cases observes with
      | observe => exact later.transfer_eq

theorem singles_eq (h : b.EndsAt now bs b') :
    b'.singles = { b with height := some now }.singles := by
  cases h.moves with
  | next observes later =>
      cases observes with
      | observe => exact later.singles_eq (by simp [Deed.settles?])

/-- Two ends of blocks, the second at a height that is no lower, are one at that height. -/
theorem merge (sound : b.Sound) (first : b.EndsAt now bs b₁) (second : b₁.EndsAt later cs b₂)
    (whole : b.EndsAt later ds b') (rises : now ≤ later) : b₂ = b' ∧ (bs ++ cs).Perm ds := by
  have sound₁ := first.sound_after sound
  have perm := first.expires.perm_append (first.batch_eq sound) second.expires whole.expires rises
  refine ⟨(whole.sound_after sound).eq_of_records (second.sound_after sound₁) ?_ ?_ ?_, perm⟩
  · rw [second.transfer_eq, moved_append first.transfer_eq, whole.transfer_eq,
      ← List.flatMap_append]
    exact moved_perm (perm.flatMap_right _)
  · funext n
    rw [second.batch_eq sound₁, first.batch_eq sound, whole.batch_eq sound, Option.map_map]
    exact congrArg (Option.map · _) (funext fun batch => batch.pruned_pruned rises)
  · rw [second.singles_eq, whole.singles_eq]
    have same := first.singles_eq
    simp only [Book.singles, Prod.mk.injEq, true_and] at same ⊢
    exact ⟨same.1, same.2.1, same.2.2.1, same.2.2.2.1, same.2.2.2.2.2⟩

/-- The second of two ends of blocks at one height finds nothing to time out. -/
theorem again (sound : b.Sound) (first : b.EndsAt now bs b₁) (second : b₁.EndsAt now cs b₂) :
    b₂ = b₁ ∧ cs = [] := by
  obtain ⟨same, perm⟩ := first.merge sound second first (UInt64.le_refl _)
  have counts := perm.length_eq
  rw [List.length_append] at counts
  exact ⟨same, List.eq_nil_of_length_eq_zero (by omega)⟩

end Book.EndsAt

/-! ## Stores -/

/-- Batches that all last to a height are left by it as they are. -/
theorem Batch.prune_idle (h : s.Keeps b) (sound : b.Sound) (lasting : b.LastsTo now) :
    run (prune now) s = (.ok [], s) := by
  obtain ⟨bs, s', b', expires, done, keeps, moves⟩ := run_prune h sound now
  have nothing : bs = [] := by
    apply List.eq_nil_iff_forall_not_mem.mpr
    intro batch mem
    obtain ⟨recorded, opened, below⟩ := expires.mem_iff.mp mem
    exact UInt64.not_lt.mpr (lasting _ batch recorded opened) below
  subst nothing
  cases moves with
  | done =>
      obtain rfl := h.eq_iff.mpr keeps
      exact done

namespace Store.Keeps

theorem run_blockEnd (h : s.Keeps b) (sound : b.Sound) (height : UInt64) :
    ∃ bs s' b',
      (Call.blockEnd height).run s =
        (.ok (Bridge.blockEnded (max (b.height.getD 0) height) bs), s') ∧
      s'.Keeps b' ∧ b.EndsAt (max (b.height.getD 0) height) bs b' := by
  obtain ⟨now, bs, s', b', rises, expires, done, keeps, moves⟩ := Bridge.run_endBlock h sound height
  subst rises
  exact ⟨bs, s', b', run_atomic_eq_ok.mpr done, keeps, expires, moves⟩

/-- Two ends of blocks are one at the higher height. -/
theorem ends_merge (h : s.Keeps b) (sound : b.Sound) (height next : UInt64) :
    ∃ bs s₁ cs s₂ ds,
      (Call.blockEnd height).run s =
        (.ok (Bridge.blockEnded (max (b.height.getD 0) height) bs), s₁) ∧
      (Call.blockEnd next).run s₁ =
        (.ok (Bridge.blockEnded (max (b.height.getD 0) (max height next)) cs), s₂) ∧
      (Call.blockEnd (max height next)).run s =
        (.ok (Bridge.blockEnded (max (b.height.getD 0) (max height next)) ds), s₂) ∧
      (bs ++ cs).Perm ds := by
  obtain ⟨bs, s₁, b₁, first, keeps₁, ends₁⟩ := h.run_blockEnd sound height
  have sound₁ := ends₁.sound_after sound
  obtain ⟨cs, s₂, b₂, second, keeps₂, ends₂⟩ := keeps₁.run_blockEnd sound₁ next
  obtain ⟨ds, s', b', whole, keeps, ends⟩ := h.run_blockEnd sound (max height next)
  have together : max (max (b.height.getD 0) height) next =
      max (b.height.getD 0) (max height next) := Std.Associative.assoc _ _ _
  rw [ends₁.height_eq sound, Option.getD_some, together] at second ends₂
  obtain ⟨rfl, perm⟩ := ends₁.merge sound ends₂ ends (together ▸ Std.left_le_max)
  obtain rfl := keeps.eq_iff.mpr keeps₂
  exact ⟨bs, s₁, cs, _, ds, first, second, whole, perm⟩

end Store.Keeps

namespace Reachable

variable {heights : List UInt64} {top : UInt64}

/-- Any ends of blocks are one at the highest of their heights. -/
theorem ends_as_one (h : Reachable s) (highest : heights.max? = some top)
    (ran : (Call.blockEnd top).run s = (.ok (Bridge.blockEnded now bs), s')) :
    (Chain.play s (heights.map .blockEnd)).2 = s' ∧
      (∀ e ∈ (Chain.play s (heights.map .blockEnd)).1, ∃ r, e.answer = .ok r) ∧
        ((Chain.play s (heights.map .blockEnd)).1.flatMap (·.events)).Perm
          (Bridge.blockEnded now bs).events := by
  induction heights generalizing s top now bs s' with
  | nil => cases highest
  | cons height rest ih =>
      rw [List.max?_cons, Option.some.injEq] at highest
      subst highest
      rw [List.map_cons, Chain.play_cons]
      cases later : rest.max? with
      | none =>
          obtain rfl := List.max?_eq_none_iff.mp later
          rw [later, Option.elim_none] at ran
          rw [ran]
          simp [Chain.play, Chain.Step.events]
      | some highest =>
          rw [later, Option.elim_some] at ran
          obtain ⟨cs, s₁, ds, s₂, all, first, second, whole, perm⟩ :=
            h.keeps.ends_merge h.sound height highest
          have reached : Reachable s₁ := by
            have called := h.call (.blockEnd height)
            rwa [first] at called
          obtain ⟨store, answered, events⟩ := ih reached later second
          obtain ⟨same, rfl⟩ := Prod.mk.inj (whole.symm.trans ran)
          rw [first]
          refine ⟨store, List.forall_mem_cons.mpr ⟨⟨_, rfl⟩, answered⟩, ?_⟩
          rw [List.flatMap_cons, ← Except.ok.inj same]
          have together := perm.map (Event.ofBatch "outgoing_batch_timed_out")
          rw [List.map_append] at together
          exact (events.append_left _).trans together

/-- Ends of blocks come to one in every reachable store. -/
theorem blocksMerge (h : Reachable s) : s.BlocksMerge where
  as_one heights top highest := by
    obtain ⟨bs, s', _, ran, _, ends⟩ := h.keeps.run_blockEnd h.sound top
    obtain ⟨store, answered, events⟩ := h.ends_as_one highest ran
    have told := ends.expires.timesOut h.sound.toGrouped
    refine ⟨by rw [store, ran], answered, _, bs, _, Std.right_le_max, congrArg Prod.fst ran, told,
      ?_, ends.expires.nodup_nonces, events, told.events ▸ events.map Event.timedOut?⟩
    intro batch
    rw [ends.expires.mem_iff, Store.mem_batchesOpen h.keeps, and_assoc]
  again height lower falls := by
    obtain ⟨bs, s', b', first, keeps, ends⟩ := h.keeps.run_blockEnd h.sound height
    have sound' := ends.sound_after h.sound
    have reached := UInt64.le_trans falls (Std.right_le_max (a := s.book.height.getD 0))
    obtain ⟨cs, s'', b'', second, keeps', ends'⟩ := keeps.run_blockEnd sound' lower
    rw [ends.height_eq h.sound, Option.getD_some,
      Std.LawfulOrderLeftLeaningMax.max_eq_left _ _ reached] at second ends'
    obtain ⟨rfl, rfl⟩ := ends.again h.sound ends'
    obtain rfl := keeps.eq_iff.mpr keeps'
    exact ⟨_, bs, _, _, _, first, ends.expires.timesOut h.sound.toGrouped, second,
      ends'.expires.timesOut sound'.toGrouped, Batch.prune_idle keeps' sound'
        (Book.lastsTo_of_pruned (ends.batch_eq h.sound) reached)⟩
  prune_again height lower falls := by
    obtain ⟨bs, s', b', expires, done, keeps, moves⟩ := Batch.run_prune h.keeps h.sound height
    have pruned := moves.batch_pruned h.sound expires
    exact ⟨_, s', done, Batch.prune_idle keeps (h.sound.moves moves)
      (Book.lastsTo_of_pruned pruned falls)⟩

end Reachable

/-- After the first request three blocks come to one, and an event tells of the first batch. -/
theorem Chain.blocksMerge_after_firstRequest : ∃ s, Reachable s ∧ s.BlocksMerge ∧
    s.EndsAsOne [4000, 8, 4000] 4000 ∧ ∃ batch ∈ s.batchesOpen,
      ∃ e ∈ (play s ([4000, 8, 4000].map .blockEnd)).1.flatMap (·.events),
        e.timedOut? = some batch := by
  obtain ⟨reached, keeps⟩ := keeps_requested plainConfig_inBounds rfl
    (.founded founded_plainStore) keeps_plainStore
  have merges := reached.blocksMerge
  have as_one := merges.as_one [4000, 8, 4000] 4000 (by decide)
  obtain ⟨now, bs, _, reached_top, _, _, due, _, _, told⟩ := as_one.reported
  have opened : firstBatch plainConfig ∈ (requested plainStore).batchesOpen :=
    (Store.mem_batchesOpen keeps).mpr ⟨rfl, rfl⟩
  have passed : (firstBatch plainConfig).timeout < 4000 := by decide
  have listed := (due _).mpr ⟨opened, UInt64.lt_of_lt_of_le passed reached_top⟩
  have event := List.mem_map.mp (told.mem_iff.mpr (List.mem_map_of_mem listed))
  exact ⟨_, reached, merges, as_one, _, opened, event⟩

end BridgePool
