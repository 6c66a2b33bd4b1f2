import BridgePool.Proofs.Bytes
import BridgePool.Text.Hex
import Mathlib.Data.Nat.Digits.Lemmas

/-!
# Digits of base sixteen

What digits write is read back from them in lower case, so pairs of digits and bytes stand for each
other but for the case (`Hex.ofBytes_of_toBytes?`). Lower-case digits sort as the bytes do
(`Hex.ofBytes_lt_iff`), and the bytes are the number that the digits spell in base sixteen
(`Hex.toNat_of_toBytes?`).
-/

namespace BridgePool.Hex

/-- The digits of base sixteen in their order, and then the capitals of the last six. -/
def alphabet : List Char :=
  "0123456789abcdefABCDEF".toList

/-- What a digit counts, whatever its case. -/
def weight (c : Char) : Nat :=
  alphabet.idxOf c.toLower

/-- The number that digits spell in base sixteen, the first of them counting most. -/
def number (digits : List Char) : Nat :=
  Nat.ofDigits 16 (digits.map weight).reverse

/-! ## Single digits -/

/-- What holds of the digits is seen by going through them. -/
theorem forall_mem_alphabet {p : Char → Prop} [DecidablePred p]
    (all : alphabet.all (fun c => p c) = true) : ∀ c ∈ alphabet, p c :=
  fun c mem => of_decide_eq_true (List.all_eq_true.mp all c mem)

theorem value?_of_mem_alphabet : ∀ c ∈ alphabet, value? c = some (weight c) :=
  forall_mem_alphabet (by decide)

theorem digit_weight : ∀ c ∈ alphabet, digit (weight c) = c.toLower :=
  forall_mem_alphabet (by decide)

theorem weight_lt : ∀ c ∈ alphabet, weight c < 16 :=
  forall_mem_alphabet (by decide)

/-- A range of characters lies in the alphabet when its numbers do. -/
theorem mem_alphabet_of_range {low high c : Char}
    (range : ∀ n < high.toNat + 1, low.toNat ≤ n → Char.ofNat n ∈ alphabet)
    (above : low ≤ c) (below : c ≤ high) : c ∈ alphabet := by
  rw [Char.le_def, UInt32.le_iff_toNat_le] at above below
  have mem := range c.toNat (Nat.lt_succ_of_le below) above
  rwa [Char.ofNat_toNat] at mem

/-- The three ranges that are read hold the alphabet and nothing else. -/
theorem isDigit_iff {c : Char} : isDigit c = true ↔ c ∈ alphabet := by
  constructor
  · intro read
    rw [isDigit, value?] at read
    split at read
    next figure => exact mem_alphabet_of_range (by decide) figure.1 figure.2
    split at read
    next small => exact mem_alphabet_of_range (by decide) small.1 small.2
    split at read
    next capital => exact mem_alphabet_of_range (by decide) capital.1 capital.2
    next => cases read
  · intro mem
    rw [isDigit, value?_of_mem_alphabet c mem]
    rfl

theorem digit_lt_iff : ∀ m < 16, ∀ n < 16, digit m < digit n ↔ m < n := by decide

theorem digit_inj : ∀ m < 16, ∀ n < 16, digit m = digit n ↔ m = n := by decide

/-! ## Pairs of digits -/

variable {cs : List Char} {b d : Bytes}

/-- A byte is written by two digits that count it. -/
theorem byte?_eq_some {high low : Char} {x : UInt8} (read : byte? high low = some x) :
    high ∈ alphabet ∧ low ∈ alphabet ∧ x.toNat = 16 * weight high + weight low := by
  have digit_of {c : Char} {n : Nat} (value : value? c = some n) : c ∈ alphabet ∧ n = weight c := by
    have mem : c ∈ alphabet := isDigit_iff.mp (by rw [isDigit, value]; rfl)
    rw [value?_of_mem_alphabet c mem] at value
    exact ⟨mem, (Option.some.inj value).symm⟩
  simp only [byte?, bind, Option.bind_eq_some_iff, pure, Option.some.injEq] at read
  obtain ⟨m, first, n, second, rfl⟩ := read
  obtain ⟨memHigh, rfl⟩ := digit_of first
  obtain ⟨memLow, rfl⟩ := digit_of second
  have boundHigh := weight_lt high memHigh
  have boundLow := weight_lt low memLow
  refine ⟨memHigh, memLow, UInt8.toNat_ofNat_of_lt' ?_⟩
  show _ < 256
  omega

/-- Reading a text of digits takes its pairs apart. -/
theorem toBytes?_cons {high low : Char} :
    toBytes? (high :: low :: cs) = some b ↔
      ∃ x rest, byte? high low = some x ∧ toBytes? cs = some rest ∧ b = x :: rest := by
  simp only [toBytes?, bind, Option.bind_eq_some_iff, pure, Option.some.injEq, eq_comm (b := b)]
  constructor
  · rintro ⟨x, first, rest, others, rfl⟩
    exact ⟨x, rest, first, others, rfl⟩
  · rintro ⟨x, rest, first, others, rfl⟩
    exact ⟨x, first, rest, others, rfl⟩

/-- What was read is written in lower case. -/
theorem ofBytes_of_toBytes? (read : toBytes? cs = some b) : ofBytes b = cs.map Char.toLower := by
  induction b generalizing cs with
  | nil =>
      obtain rfl := List.eq_nil_of_length_eq_zero (length_of_toBytes? read)
      rfl
  | cons x b ih =>
      match cs with
      | [] => cases read
      | [_] => cases read
      | high :: low :: cs =>
          obtain ⟨y, rest, first, others, same⟩ := toBytes?_cons.mp read
          obtain ⟨rfl, rfl⟩ := List.cons.inj same
          obtain ⟨memHigh, memLow, value⟩ := byte?_eq_some first
          have bound := weight_lt low memLow
          have upper : x.toNat / 16 = weight high := by omega
          have lower : x.toNat % 16 = weight low := by omega
          rw [ofBytes, upper, lower, digit_weight high memHigh, digit_weight low memLow, ih others]
          rfl

theorem ofBytes_injective (same : ofBytes b = ofBytes d) : b = d := by
  have read := toBytes?_ofBytes b
  rw [same, toBytes?_ofBytes] at read
  exact (Option.some.inj read).symm

/-- Lower-case digits sort as the bytes do. -/
theorem ofBytes_lt_iff : ofBytes b < ofBytes d ↔ b < d := by
  induction b generalizing d with
  | nil => cases d <;> simp [ofBytes]
  | cons x b ih =>
      cases d with
      | nil => simp [ofBytes]
      | cons y d =>
          have boundX := x.toNat_lt
          have boundY := y.toNat_lt
          have high := digit_lt_iff (x.toNat / 16) (by omega) (y.toNat / 16) (by omega)
          have low := digit_lt_iff (x.toNat % 16) (by omega) (y.toNat % 16) (by omega)
          have high_inj := digit_inj (x.toNat / 16) (by omega) (y.toNat / 16) (by omega)
          have low_inj := digit_inj (x.toNat % 16) (by omega) (y.toNat % 16) (by omega)
          have halves_lt : x.toNat < y.toNat ↔ x.toNat / 16 < y.toNat / 16 ∨
              x.toNat / 16 = y.toNat / 16 ∧ x.toNat % 16 < y.toNat % 16 := by omega
          have halves_eq : x.toNat = y.toNat ↔ x.toNat / 16 = y.toNat / 16 ∧
              x.toNat % 16 = y.toNat % 16 := by omega
          simp only [ofBytes, List.cons_lt_cons_iff, high, low, high_inj, low_inj, ih,
            UInt8.lt_iff_toNat_lt, ← UInt8.toNat_inj, halves_lt, halves_eq, and_or_left, or_assoc,
            and_assoc]

theorem number_cons (c : Char) (cs : List Char) :
    number (c :: cs) = weight c * 16 ^ cs.length + number cs := by
  rw [number, List.map_cons, List.reverse_cons, Nat.ofDigits_append, Nat.ofDigits_singleton,
    List.length_reverse, List.length_map, number]
  ring

/-- The bytes are the number that the digits spell. -/
theorem toNat_of_toBytes? (read : toBytes? cs = some b) : Bytes.toNat b = number cs := by
  induction b generalizing cs with
  | nil =>
      obtain rfl := List.eq_nil_of_length_eq_zero (length_of_toBytes? read)
      rfl
  | cons x b ih =>
      match cs with
      | [] => cases read
      | [_] => cases read
      | high :: low :: cs =>
          obtain ⟨y, rest, first, others, same⟩ := toBytes?_cons.mp read
          obtain ⟨rfl, rfl⟩ := List.cons.inj same
          obtain ⟨_, _, value⟩ := byte?_eq_some first
          have below := ih others
          have twice := length_of_toBytes? others
          rw [Bytes.toNat_cons, value, below, number_cons, number_cons, List.length_cons, twice,
            pow_succ, pow_mul]
          ring

end BridgePool.Hex
