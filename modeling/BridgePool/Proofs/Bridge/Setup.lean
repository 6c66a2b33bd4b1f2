import BridgePool.Bridge.Setup
import BridgePool.Proofs.Book.Moves
import BridgePool.Proofs.Operation
import BridgePool.Proofs.Store.Keeps

/-!
# Setting up on a book

A successful set-up turns the empty store into one that keeps a first book (`Book.founded`), which
is sound. An upgrade of a sound book only marks the release.
-/

namespace BridgePool

open Operation

namespace Book

/-- The book of the empty store. -/
def empty : Book where
  transfer _ := none
  listed := ∅
  batch _ := none
  nextId := none
  lastNonce := none
  openNonce _ := none
  locked _ := none
  config := none
  proposal := none
  height := none
  release := none

/-- The book after a set-up with this configuration. -/
def founded (c : Config) : Book :=
  { empty with release := some Release.current, config := some c, height := some 0 }

theorem keeps_empty : Store.empty.Keeps empty where
  legible := Store.legible_empty
  book_eq := by
    ext1 <;> simp [Store.book, empty, Store.value?, Store.wordOf?]

/-- Nothing is recorded at first. -/
theorem sound_founded {c : Config} (bounds : c.InBounds) : (founded c).Sound where
  transfer_id found := nomatch found
  batch_nonce found := nomatch found
  spelled found := nomatch found
  positive found := nomatch found
  first_id := UInt64.le_refl 1
  fresh found := nomatch found
  numbered := by
    intro n
    have none_between : ¬ (1 ≤ n ∧ n ≤ 0) := fun ⟨first, below⟩ =>
      absurd (UInt64.le_trans first below) (by decide)
    simpa [founded, empty, last] using none_between
  listed_iff := by simp [founded, empty]
  open_iff := by simp [founded, empty]
  carried_iff found := nomatch found
  sized found := nomatch found
  ids_fresh found := nomatch found
  open_kept found := nomatch found
  open_ordered found := nomatch found
  executed_gone found := nomatch found
  executed_once found := nomatch found
  held_eq denom := by simp [founded, empty, worth, worthOf, Holdings.held]
  no_empty_row _ _ row := nomatch row
  config_bounds := ⟨c, rfl, bounds⟩
  height_some := rfl

end Book

namespace Bridge

variable {b : Book} {s s' : Store} {r : Response}

/-- A set-up writes a configuration within its bounds for the administrator that is asked for,
starts the height at zero, asks the bank for nothing and reports no event. -/
theorem run_setUp_configures {m : Setup} (done : run (setUp m) .empty = (.ok r, s)) :
    ∃ c, c.InBounds ∧ c.paused = false ∧ c.admin = m.admin ∧ r.messages = [] ∧ r.events = [] ∧
      s.Keeps (.founded c) := by
  simp only [setUp, run_bind_eq_ok, run_update_eq_ok, run_lift_eq_ok, run_pure_eq_ok] at done
  obtain ⟨_, _, rfl, admin, _, ⟨checked, rfl⟩, _, _, ⟨sized, rfl⟩, _, _, ⟨timed, rfl⟩, bridge, _,
    ⟨_, rfl⟩, _, _, rfl, _, _, rfl, rfl, rfl⟩ := done
  obtain ⟨positive, below⟩ := Config.checkBatchSize_eq_ok.mp sized
  have lives := Config.checkTimeoutBlocks_eq_ok.mp timed
  refine ⟨⟨admin, false, m.batchSize.getD Config.defaultBatchSize,
    m.timeoutBlocks.getD Config.defaultTimeoutBlocks, .ofOption bridge⟩,
    ⟨positive, below, lives⟩, rfl, Account.eq_of_check checked, rfl, rfl, ?_⟩
  exact ((Book.keeps_empty.saveRelease Release.current).saveConfig _).saveHeight 0

/-- A set-up writes a configuration within its bounds, starts the height at zero, and asks the
bank for nothing. -/
theorem run_setUp_ok {m : Setup} (done : run (setUp m) .empty = (.ok r, s)) :
    ∃ c, c.InBounds ∧ c.paused = false ∧ r.messages = [] ∧ s.Keeps (.founded c) := by
  obtain ⟨c, bounds, active, _, silent, _, keeps⟩ := run_setUp_configures done
  exact ⟨c, bounds, active, silent, keeps⟩

/-- An upgrade always succeeds; the height of a sound book is there already. -/
theorem run_upgrade (h : s.Keeps b) (sound : b.Sound) :
    ∃ s', run upgrade s = (.ok {
        attributes := [("action", "migrate"), ("version", Release.current.version)]
        events := [], messages := [] }, s') ∧
      s'.Keeps { b with release := some Release.current } := by
  have marked := h.saveRelease Release.current
  obtain ⟨height, recorded⟩ := Option.isSome_iff_exists.mp sound.height_some
  have looked : (s.save .release Release.current).recordedHeight? = .ok (some height) :=
    marked.recordedHeight?.trans (congrArg _ recorded)
  exact ⟨_, run_bind_eq_ok.mpr ⟨(), _, rfl, run_bind_eq_ok.mpr
    ⟨some height, _, run_read_eq_ok.mpr ⟨looked, rfl⟩, rfl⟩⟩, marked⟩

end Bridge

end BridgePool
