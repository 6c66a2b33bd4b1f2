import BridgePool.Proofs.Chain

/-!
# The ledger is conserved

In every reachable store the ledger holds, denom by denom, what the kept transfers of that denom
are worth, and it has a row for a denom exactly when that is something
(`Reachable.locked_eq_worth`). Denoms count by their spelling: two spellings of one contract are
two denoms here, although they share a pool.
-/

namespace BridgePool

variable {s : Store}

/-- A row where the ledger is kept belongs to a denom. -/
theorem Store.Legible.cell_of_lockedStart (h : s.Legible) {key row : Bytes}
    (found : s.get? key = some row) (start : Cell.lockedStart <+: key) :
    ∃ denom, key = (Cell.locked denom).key := by
  obtain ⟨c, rfl, _⟩ := h key row found
  have lead : c.key.head? = some 0x00 := by
    obtain ⟨rest, shape⟩ := start
    rw [← shape]
    rfl
  rw [Cell.head?_key, Option.some.injEq] at lead
  cases c <;> simp [Cell.family] at lead
  exact ⟨_, rfl⟩

/-- What a sound book holds of a denom is in a row exactly when it is something. -/
theorem Book.Balanced.isSome_iff {b : Book} (h : b.Balanced) (denom : String) :
    (b.locked denom).isSome ↔ 0 < b.worth denom := by
  have held := h.held_eq denom
  rw [Holdings.held] at held
  cases row : b.locked denom with
  | none =>
      rw [row, Option.getD_none, Amount.val_zero] at held
      simp [← held]
  | some amount =>
      rw [row, Option.getD_some] at held
      have positive := h.no_empty_row denom amount row
      rw [held] at positive
      simp only [Option.isSome_some, true_iff]
      omega

/-- The ledger holds what the kept transfers are worth, and nothing else has a row in it. -/
theorem Reachable.locked_eq_worth (h : Reachable s) :
    (∀ denom, ∃ amount, s.locked denom = .ok amount ∧ amount.val = s.worth denom) ∧
      (∀ denom, (s.get? (Cell.locked denom).key).isSome ↔ 0 < s.worth denom) ∧
      ∀ key row, s.get? key = some row → Cell.lockedStart <+: key →
        ∃ denom, key = (Cell.locked denom).key ∧
          ∃ amount : CoinAmount, row = Codec.bytes amount ∧ amount.val = s.worth denom ∧
            0 < amount.val := by
  have keeps := h.keeps
  have sound := h.sound
  refine ⟨?_, ?_, ?_⟩
  · intro denom
    refine ⟨_, keeps.locked denom, ?_⟩
    rw [keeps.legible.worth_eq]
    exact sound.held_eq denom
  · intro denom
    rw [keeps.get?_locked, Option.isSome_map, keeps.legible.worth_eq]
    exact sound.isSome_iff denom
  · intro key row found start
    obtain ⟨denom, rfl⟩ := keeps.legible.cell_of_lockedStart found start
    rw [keeps.get?_locked, Option.map_eq_some_iff] at found
    obtain ⟨amount, held, rfl⟩ := found
    have worth := sound.held_eq denom
    rw [Holdings.held, held, Option.getD_some, ← keeps.legible.worth_eq] at worth
    exact ⟨denom, rfl, amount, rfl, worth,
      Nat.pos_of_ne_zero (sound.no_empty_row denom amount held)⟩

/-- After the first send, a hundred and ten vouchers are held of its denom. -/
theorem locked_after_firstSend :
    ∃ s : Store, Reachable s ∧ s.worth (Denom.ofContract .zero) = 110 ∧
      (∃ amount, s.locked (Denom.ofContract .zero) = .ok amount ∧ amount.val = 110) ∧
      (s.get? (Cell.locked (Denom.ofContract .zero)).key).isSome = true := by
  have reached : Reachable (Chain.firstSend.run Chain.plainStore).2 :=
    .call _ (.founded Chain.founded_plainStore)
  obtain ⟨eq, row, _⟩ := reached.locked_eq_worth
  obtain ⟨_, _, _, _, _, _, keeps⟩ := Chain.run_firstSend
  have worth : (Chain.firstSend.run Chain.plainStore).2.worth (Denom.ofContract .zero) = 110 := by
    rw [keeps.legible.worth_eq, ← reached.sound.held_eq, keeps.book_eq]
    exact Holdings.held_update _ _ _ _
  refine ⟨_, reached, worth, ?_, ?_⟩
  · exact worth ▸ eq (Denom.ofContract .zero)
  · exact (row _).mpr (by omega)

end BridgePool
