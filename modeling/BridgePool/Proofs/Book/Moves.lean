import BridgePool.Proofs.Book.Batches
import BridgePool.Proofs.Book.Pool

/-!
# Sound books stay sound

Every deed keeps a book sound (`Book.Sound.move`), and so do any deeds one after the other
(`Book.Sound.moves`). What each of some deeds leaves as it was, they leave so together
(`Moves.preserve`).
-/

namespace BridgePool

variable {b b' : Book} {d : Deed} {ds : List Deed}

namespace Book

/-- The single records matter to the configured part alone. -/
theorem Sound.administered (h : b.Sound) (same : b' = { b with
    config := b'.config, proposal := b'.proposal, height := b'.height, release := b'.release })
    (configured : b'.Configured) : b'.Sound := by
  rw [same]
  exact {
    transfer_id := h.transfer_id, batch_nonce := h.batch_nonce, spelled := h.spelled
    positive := h.positive, first_id := h.first_id, fresh := h.fresh, numbered := h.numbered
    listed_iff := h.listed_iff, open_iff := h.open_iff
    carried_iff := h.carried_iff, sized := h.sized, ids_fresh := h.ids_fresh
    open_kept := h.open_kept, open_ordered := h.open_ordered
    executed_gone := h.executed_gone, executed_once := h.executed_once
    held_eq := h.held_eq, no_empty_row := h.no_empty_row
    config_bounds := configured.config_bounds, height_some := configured.height_some }

theorem Sound.move (h : b.Sound) (m : Move b d b') : b'.Sound := by
  cases m with
  | accept own_id room waits spelled positive credited =>
      exact h.accept own_id room waits spelled positive credited
  | refund kept waits => exact h.refund kept waits
  | gather config _ _ gathers _ =>
      have bounds := (h.bounds config).batchSize_le
      exact h.gather gathers (UInt32.le_iff_toNat_le.mp bounds)
  | disband recorded opened ends => exact h.disband recorded opened ends
  | settle recorded opened kept => exact h.settle recorded opened kept
  | configure bounds => exact h.administered rfl ⟨⟨_, rfl, bounds⟩, h.height_some⟩
  | propose => exact h.administered rfl ⟨h.config_bounds, h.height_some⟩
  | observe => exact h.administered rfl ⟨h.config_bounds, rfl⟩
  | mark => exact h.administered rfl ⟨h.config_bounds, h.height_some⟩

theorem Sound.moves (h : b.Sound) (m : Moves b ds b') : b'.Sound := by
  induction m with
  | done => exact h
  | next first _ ih => exact ih (h.move first)

end Book

theorem Move.single (m : Move b d b') : Moves b [d] b' :=
  .next m .done

theorem Moves.of_single (m : Moves b [d] b') : Move b d b' := by
  cases m with
  | next first rest =>
      cases rest
      exact first

/-- What every deed of some leaves as it was, they leave so together. -/
theorem Moves.preserve {α : Type} (part : Book → α) {leaves : Deed → Prop}
    (each : ∀ {b d b'}, Move b d b' → leaves d → part b' = part b) (m : Moves b ds b')
    (all : ∀ d ∈ ds, leaves d) : part b' = part b := by
  induction m with
  | done => rfl
  | next first _ ih =>
      obtain ⟨now, rest⟩ := List.forall_mem_cons.mp all
      exact (ih rest).trans (each first now)

end BridgePool
