import BridgePool.Config

/-!
# Configurations within their bounds

`Config.InBounds` holds of a configuration whose parameters pass their checks, and the checks pass
exactly the values within the bounds.
-/

namespace BridgePool.Config

/-- The bounds that the parameters of a configuration keep. -/
structure InBounds (c : Config) : Prop where
  batchSize_pos : c.batchSize ≠ 0
  batchSize_le : c.batchSize ≤ Config.maxBatchSize
  timeoutBlocks_pos : c.timeoutBlocks ≠ 0

/-- The bounds are those of two parameters; the others are free. -/
theorem InBounds.congr {c c' : Config} (h : c.InBounds) (size : c'.batchSize = c.batchSize)
    (timeout : c'.timeoutBlocks = c.timeoutBlocks) : c'.InBounds where
  batchSize_pos := size ▸ h.batchSize_pos
  batchSize_le := size ▸ h.batchSize_le
  timeoutBlocks_pos := timeout ▸ h.timeoutBlocks_pos

theorem checkBatchSize_eq_ok {n : UInt32} {u : Unit} :
    checkBatchSize n = .ok u ↔ n ≠ 0 ∧ n ≤ maxBatchSize := by
  rw [checkBatchSize]
  split
  next outside =>
    simp only [reduceCtorEq, false_iff]
    rintro ⟨positive, below⟩
    rcases outside with zero | above
    · exact positive zero
    · exact UInt32.not_lt.mpr below above
  next inside =>
    simp only [true_iff]
    exact ⟨fun zero => inside (.inl zero), UInt32.not_lt.mp fun above => inside (.inr above)⟩

theorem checkTimeoutBlocks_eq_ok {blocks : UInt64} {u : Unit} :
    checkTimeoutBlocks blocks = .ok u ↔ blocks ≠ 0 := by
  rw [checkTimeoutBlocks]
  split <;> simp [*]

end BridgePool.Config
