import BridgePool.Proofs.Book.Moves
import BridgePool.Proofs.Bridge.Outcome

/-!
# Heights and timeouts of a book

The recorded height rises with the ends of blocks and with nothing else (`Outcome.height_eq`). No
open batch lies below it (`Book.Timely`): a new batch times out at the recorded height or later, and
the end of a block times out just the batches that the new height has passed (`Moves.pruned`). So
every successful call keeps a book timely (`Outcome.timely`), although the deeds of one end of a
block do not do so one by one.
-/

namespace BridgePool

variable {b b' : Book} {d : Deed} {ds : List Deed} {c : Call} {r : Response} {now : UInt64}
  {bs : List Batch}

/-- The sum of two heights, cut off at the last one. -/
theorem Bridge.toNat_saturatingAdd (m n : UInt64) :
    (saturatingAdd m n).toNat = min (m.toNat + n.toNat) (UInt64.size - 1) := by
  rw [saturatingAdd]
  split
  next room =>
    rw [UInt64.toNat_add, Nat.mod_eq_of_lt room]
    omega
  next full =>
    rw [UInt64.toNat_ofNat_of_lt' (by decide)]
    omega

theorem Bridge.le_saturatingAdd (m n : UInt64) : m ≤ saturatingAdd m n := by
  rw [UInt64.le_iff_toNat_le, toNat_saturatingAdd]
  have bound : m.toNat < UInt64.size := m.toNat_lt
  omega

/-- The height whose observation a deed records. -/
def Deed.observed? : Deed → Option UInt64
  | .observe height => some height
  | _ => none

/-- The height that a call reports. -/
def Call.height? : Call → Option UInt64
  | .hostEvent (.endBlock height) => some height
  | _ => none

/-- The batch once a height is reached: an open one that lies below it is timed out. -/
def Batch.pruned (now : UInt64) (batch : Batch) : Batch :=
  if batch.state = .open ∧ batch.timeout < now then { batch with state := .timedOut } else batch

/-- No open batch lies below the height. -/
def Book.LastsTo (b : Book) (height : UInt64) : Prop :=
  ∀ n batch, b.batch n = some batch → batch.state = .open → height ≤ batch.timeout

/-- No open batch lies below the recorded height. -/
def Book.Timely (b : Book) : Prop :=
  ∀ n batch, b.batch n = some batch → batch.state = .open → b.height.getD 0 ≤ batch.timeout

/-! ## Deeds that observe nothing -/

theorem Move.height_eq (m : Move b d b') (still : d.observed? = none) : b'.height = b.height := by
  cases m with
  | observe => cases still
  | _ => rfl

theorem Move.timely (m : Move b d b') (still : d.observed? = none) (timely : b.Timely) :
    b'.Timely := by
  -- batches that end are open no longer, so the open ones are old or new
  cases m with
  | gather config active observed gathers timeout =>
      intro n batch found opened
      rcases update_eq_some.mp found with ⟨_, rfl⟩ | ⟨_, recorded⟩
      · exact timeout ▸ Bridge.le_saturatingAdd _ _
      · exact timely n batch recorded opened
  | @disband _ state _ _ ends =>
      intro n batch found opened
      have closed : state ≠ .open := by rcases ends with rfl | rfl <;> decide
      exact timely n batch (Book.open_of_closing closed found opened).2 opened
  | settle =>
      intro n batch found opened
      exact timely n batch (Book.open_of_closing (by decide) found opened).2 opened
  | observe => cases still
  | accept => exact timely
  | refund => exact timely
  | configure => exact timely
  | propose => exact timely
  | mark => exact timely

theorem Moves.height_eq (m : Moves b ds b') (still : ∀ d ∈ ds, d.observed? = none) :
    b'.height = b.height :=
  m.preserve Book.height Move.height_eq still

theorem Moves.timely (m : Moves b ds b') (still : ∀ d ∈ ds, d.observed? = none)
    (timely : b.Timely) : b'.Timely := by
  induction m with
  | done => exact timely
  | next first _ ih =>
      obtain ⟨now, rest⟩ := List.forall_mem_cons.mp still
      exact ih rest (first.timely now timely)

/-! ## The end of a block -/

theorem Moves.open_of_mem (m : Moves b (bs.map (.disband · .timedOut)) b') :
    ∀ batch ∈ bs, batch.state = .open := by
  induction bs generalizing b with
  | nil => simp
  | cons first rest ih =>
      cases m with
      | next disbands later =>
          cases disbands with
          | disband _ opened _ => exact List.forall_mem_cons.mpr ⟨opened, ih later⟩

/-- Batches that time out one after the other change in nothing but their states, and the others
stay. -/
theorem Moves.batch_eq (m : Moves b (bs.map (.disband · .timedOut)) b') (sound : b.Sound)
    (n : UInt64) :
    b'.batch n = (b.batch n).map fun batch =>
      if batch ∈ bs then { batch with state := .timedOut } else batch := by
  induction bs generalizing b with
  | nil =>
      cases m
      simp
  | cons first rest ih =>
      cases m with
      | next disbands later =>
          have opens := later.open_of_mem
          have after := ih later (sound.move disbands)
          cases disbands with
          | disband recorded opened ends =>
          rw [after]
          show (Function.update b.batch first.nonce _ n).map _ = _
          rw [Function.update_apply]
          split
          -- the first batch is timed out, and the rest are open, so it is timed out once
          next own =>
            have apart : { first with state := .timedOut } ∉ rest := fun mem => nomatch opens _ mem
            rw [own, recorded, Option.map_some, Option.map_some, if_neg apart,
              if_pos List.mem_cons_self]
          next other =>
            cases found : b.batch n with
            | none => rfl
            | some batch =>
                have apart : batch ≠ first := by
                  rintro rfl
                  exact other (sound.batch_nonce found).symm
                simp [apart]

/-- The transfers of batches that time out one after the other wait again. -/
theorem Moves.transfer_eq (m : Moves b (bs.map (.disband · .timedOut)) b') :
    b'.transfer = b.moved (bs.flatMap (·.ids)) .unbatched := by
  induction bs generalizing b with
  | nil =>
      cases m
      exact funext fun id => (Book.moved_of_not_mem List.not_mem_nil).symm
  | cons first rest ih =>
      cases m with
      | next disbands later =>
          rw [ih later]
          cases disbands with
          | disband => exact Book.moved_append rfl

/-- Of the batches, those that a height passes are timed out. -/
theorem Moves.batch_pruned (m : Moves b (bs.map (.disband · .timedOut)) b') (sound : b.Sound)
    (expires : b.Expires now bs) (n : UInt64) :
    b'.batch n = (b.batch n).map (Batch.pruned now) := by
  rw [m.batch_eq sound n]
  cases found : b.batch n with
  | none => rfl
  | some batch =>
      have own : b.batch batch.nonce = some batch := sound.batch_nonce found ▸ found
      have due : batch ∈ bs ↔ batch.state = .open ∧ batch.timeout < now := by
        rw [expires.mem_iff]
        exact and_iff_right own
      simp only [Option.map_some, Batch.pruned, due]

/-- What the end of a block leaves of the height and of the batches. -/
theorem Moves.pruned (m : Moves b (.observe now :: bs.map (.disband · .timedOut)) b')
    (sound : b.Sound) (expires : b.Expires now bs) :
    b'.height = some now ∧ ∀ n, b'.batch n = (b.batch n).map (Batch.pruned now) := by
  cases m with
  | next observes later =>
      have height := later.height_eq (by simp [Deed.observed?])
      have sound := sound.move observes
      cases observes with
      | observe => exact ⟨height, later.batch_pruned sound ⟨expires.mem_iff, expires.ascending⟩⟩

/-- A batch that is open when a height is reached was open before, and lasts to the height. -/
theorem Batch.of_open_pruned {batch : Batch} (opened : (batch.pruned now).state = .open) :
    batch.pruned now = batch ∧ now ≤ batch.timeout := by
  rw [pruned] at opened ⊢
  split at opened
  next => cases opened
  next stays =>
    exact ⟨if_neg stays, UInt64.not_lt.mp fun below => stays ⟨opened, below⟩⟩

/-- What is open after a height lasts to it, and to every lower one. -/
theorem Book.lastsTo_of_pruned (pruned : ∀ n, b'.batch n = (b.batch n).map (Batch.pruned now))
    {lower : UInt64} (falls : lower ≤ now) : b'.LastsTo lower := by
  intro n batch found opened
  rw [pruned] at found
  obtain ⟨old, _, rfl⟩ := Option.map_eq_some_iff.mp found
  obtain ⟨same, reached⟩ := Batch.of_open_pruned opened
  rw [same]
  exact UInt64.le_trans falls reached

/-! ## Successful calls -/

/-- The deeds of a call that reports no height observe none. -/
theorem Outcome.still (h : Outcome b c r ds) (silent : c.height? = none) :
    ∀ d ∈ ds, d.observed? = none := by
  cases h with
  | endBlock => cases silent
  | _ => simp [Deed.observed?]

theorem Outcome.height_eq (h : Outcome b c r ds) (moves : Moves b ds b') (sound : b.Sound) :
    b'.height.getD 0 = c.height?.elim (b.height.getD 0) (max (b.height.getD 0)) := by
  cases reported : c.height? with
  | none => rw [moves.height_eq (h.still reported), Option.elim_none]
  | some height =>
      cases h with
      | endBlock rises expires =>
          obtain rfl := Option.some.inj reported
          rw [(moves.pruned sound expires).1, rises]
          rfl
      | _ => cases reported

theorem Outcome.timely (h : Outcome b c r ds) (moves : Moves b ds b') (sound : b.Sound)
    (timely : b.Timely) : b'.Timely := by
  cases reported : c.height? with
  | none => exact moves.timely (h.still reported) timely
  | some height =>
      cases h with
      | endBlock _ expires =>
          obtain ⟨height, batches⟩ := moves.pruned sound expires
          show b'.LastsTo (b'.height.getD 0)
          rw [height]
          exact Book.lastsTo_of_pruned batches (UInt64.le_refl _)
      | _ => cases reported

end BridgePool
