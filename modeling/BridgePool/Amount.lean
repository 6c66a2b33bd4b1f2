/-!
# Bounded amounts

`Amount bits` holds the natural numbers below `2` to the power `bits`. Sums and differences are checked: they
answer `none` where the exact result does not fit, so no arithmetic here ever wraps.
-/

namespace BridgePool

/-- A natural number that fits `bits` bits. -/
@[ext] structure Amount (bits : Nat) where
  /-- The number itself. -/
  val : Nat
  isLt : val < Nat.pow 2 bits
  deriving DecidableEq

/-- What a bank coin can hold. -/
abbrev CoinAmount := Amount 128

/-- What a token balance on the far chain can hold. -/
abbrev TokenAmount := Amount 256

namespace Amount

variable {bits : Nat}

/-- The amount of this size, if it fits. -/
def ofNat? (bits n : Nat) : Option (Amount bits) :=
  if h : n < Nat.pow 2 bits then some ⟨n, h⟩ else none

/-- Nothing. -/
def zero : Amount bits :=
  ⟨0, Nat.two_pow_pos bits⟩

/-- The exact sum, if it fits. -/
def add? (a b : Amount bits) : Option (Amount bits) :=
  ofNat? bits (a.val + b.val)

/-- The exact difference, if `b` is not the larger. -/
def sub? (a b : Amount bits) : Option (Amount bits) :=
  if b.val ≤ a.val then some ⟨a.val - b.val, Nat.lt_of_le_of_lt (Nat.sub_le _ _) a.isLt⟩ else none

/-- The same number where there is more room. -/
def widen {bits wide : Nat} (a : Amount bits) (h : bits ≤ wide) : Amount wide :=
  ⟨a.val, Nat.lt_of_lt_of_le a.isLt (Nat.pow_le_pow_right (by decide) h)⟩

/-- The same number in less room, if it fits. -/
def narrow? (a : Amount bits) (narrow : Nat) : Option (Amount narrow) :=
  ofNat? narrow a.val

@[simp] theorem val_zero : (zero : Amount bits).val = 0 := rfl

@[simp] theorem val_widen {wide : Nat} (a : Amount bits) (h : bits ≤ wide) :
    (a.widen h).val = a.val := rfl

theorem ofNat?_eq_some {n : Nat} {a : Amount bits} :
    ofNat? bits n = some a ↔ a.val = n := by
  constructor
  · intro h
    simp only [ofNat?] at h
    split at h
    · exact (Option.some.inj h) ▸ rfl
    · cases h
  · rintro rfl
    rw [ofNat?, dif_pos a.isLt]

@[simp] theorem ofNat?_val (a : Amount bits) : ofNat? bits a.val = some a :=
  ofNat?_eq_some.mpr rfl

theorem ofNat?_eq_none {n : Nat} : ofNat? bits n = none ↔ Nat.pow 2 bits ≤ n := by
  rw [ofNat?]
  split
  next fits => simp only [reduceCtorEq, false_iff]; omega
  next large => simp only [true_iff]; omega

theorem add?_eq_some {a b c : Amount bits} : a.add? b = some c ↔ c.val = a.val + b.val :=
  ofNat?_eq_some

theorem sub?_eq_some {a b c : Amount bits} : a.sub? b = some c ↔ a.val = c.val + b.val := by
  simp only [sub?]
  split
  · simp only [Option.some.injEq, Amount.ext_iff]; omega
  · simp only [reduceCtorEq, false_iff]; omega

theorem sub?_eq_none {a b : Amount bits} : a.sub? b = none ↔ a.val < b.val := by
  simp [sub?]

theorem narrow?_eq_some {narrow : Nat} {a : Amount bits} {b : Amount narrow} :
    a.narrow? narrow = some b ↔ b.val = a.val :=
  ofNat?_eq_some

end Amount

end BridgePool
