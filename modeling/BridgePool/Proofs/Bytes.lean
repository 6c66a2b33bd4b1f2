import BridgePool.Bytes
import Mathlib.Data.List.Sort
import Mathlib.Tactic.Linarith
import Mathlib.Tactic.Ring

/-!
# The order of byte strings

Big-endian numbers of one width sort as the numbers do, and the strings that start with a given
one are a range.

* `bigEndian_lt_iff`, `bigEndian_inj`, `bigEndian_toNat` — numbers of one width;
* `append_lt_append_iff`, `compare_append` — the front decides, then the rest;
* `prefix_iff_range` — the strings from `p` up to `rangeEnd p` are those that start with `p`;
* `eq_of_ascending` — a list in ascending order of keys is determined by its members.
-/

namespace BridgePool.Bytes

/-! ## Big-endian numbers -/

theorem toNat_cons (x : UInt8) (rest : Bytes) :
    toNat (x :: rest) = x.toNat * 256 ^ rest.length + toNat rest := by
  rw [toNat, Nat.shiftLeft_eq, pow_mul]
  norm_num

theorem toNat_bigEndian (width n : Nat) : toNat (bigEndian width n) = n % 256 ^ width := by
  induction width with
  | zero => simp [bigEndian, toNat, Nat.mod_one]
  | succ width ih =>
      -- the first byte is the digit of weight `256 ^ width`, the others make up the remainder
      have digit : (UInt8.ofNat (n >>> (8 * width))).toNat = n / 256 ^ width % 256 := by
        simp [Nat.shiftRight_eq_div_pow, pow_mul]
      rw [bigEndian, toNat_cons, ih, digit, length_bigEndian, pow_succ, Nat.mod_mul]
      ring

theorem toNat_lt (b : Bytes) : toNat b < 256 ^ b.length := by
  induction b with
  | nil => simp [toNat]
  | cons x rest ih =>
      have digit : x.toNat + 1 ≤ 256 := x.toNat_lt
      have lead := Nat.mul_le_mul_right (256 ^ rest.length) digit
      rw [toNat_cons, List.length_cons, pow_succ]
      linarith

/-- In a place-value system the leading digit decides, then the rest. -/
theorem radix_lt_iff {base x y a b : Nat} (ha : a < base) (hb : b < base) :
    x * base + a < y * base + b ↔ x < y ∨ x = y ∧ a < b := by
  rcases Nat.lt_trichotomy x y with less | rfl | more
  · have lead := Nat.mul_le_mul_right base less
    rw [Nat.succ_mul] at lead
    constructor
    · intro _
      exact .inl less
    · intro _
      omega
  · omega
  · have lead := Nat.mul_le_mul_right base more
    rw [Nat.succ_mul] at lead
    omega

/-- Strings of one length sort as the numbers they stand for. -/
theorem lt_iff_toNat_lt {a b : Bytes} (same : a.length = b.length) :
    a < b ↔ toNat a < toNat b := by
  induction a generalizing b with
  | nil =>
      obtain rfl := List.eq_nil_of_length_eq_zero same.symm
      simp [List.lt_irrefl]
  | cons x a ih =>
      cases b with
      | nil => simp at same
      | cons y b =>
          simp only [List.length_cons, Nat.add_right_cancel_iff] at same
          have boundA := toNat_lt a
          have boundB := toNat_lt b
          rw [← same] at boundB
          rw [List.cons_lt_cons_iff, ih same, toNat_cons, toNat_cons, ← same,
            radix_lt_iff boundA boundB, UInt8.lt_iff_toNat_lt, UInt8.toNat_inj]

/-- Numbers that fit the width sort as their digits do. -/
theorem bigEndian_lt_iff {width m n : Nat} (hm : m < 256 ^ width) (hn : n < 256 ^ width) :
    bigEndian width m < bigEndian width n ↔ m < n := by
  rw [lt_iff_toNat_lt (by simp), toNat_bigEndian, toNat_bigEndian, Nat.mod_eq_of_lt hm,
    Nat.mod_eq_of_lt hn]

/-- The digits of one width tell two numbers apart. -/
theorem bigEndian_inj {width m n : Nat} (hm : m < 256 ^ width) (hn : n < 256 ^ width) :
    bigEndian width m = bigEndian width n ↔ m = n := by
  constructor
  · intro h
    have values := congrArg toNat h
    rwa [toNat_bigEndian, toNat_bigEndian, Nat.mod_eq_of_lt hm, Nat.mod_eq_of_lt hn] at values
  · rintro rfl
    rfl

/-- Numbers that fit the width compare as their digits do. -/
theorem compare_bigEndian {width m n : Nat} (hm : m < 256 ^ width) (hn : n < 256 ^ width) :
    compareOfLessAndEq (bigEndian width m) (bigEndian width n) = compare m n := by
  show _ = compareOfLessAndEq m n
  simp only [compareOfLessAndEq, bigEndian_lt_iff hm hn, bigEndian_inj hm hn]

/-- Strings of one length that stand for one number are the same. -/
theorem eq_of_toNat_eq {a b : Bytes} (length : a.length = b.length) (h : toNat a = toNat b) :
    a = b := by
  rcases Std.lt_trichotomy a b with lower | same | higher
  · rw [lt_iff_toNat_lt length, h] at lower
    exact absurd lower (Nat.lt_irrefl _)
  · exact same
  · rw [lt_iff_toNat_lt length.symm, h] at higher
    exact absurd higher (Nat.lt_irrefl _)

/-- The digits of a string's number are the string. -/
theorem bigEndian_toNat (b : Bytes) : bigEndian b.length (toNat b) = b := by
  apply eq_of_toNat_eq (length_bigEndian _ _)
  rw [toNat_bigEndian, Nat.mod_eq_of_lt (toNat_lt b)]

/-! ## Parts and ranges -/

/-- The fronts decide; where they agree, the rests do. -/
theorem append_lt_append_iff {a b c d : Bytes} (same : a.length = b.length) :
    a ++ c < b ++ d ↔ a < b ∨ a = b ∧ c < d := by
  induction a generalizing b with
  | nil =>
      obtain rfl := List.eq_nil_of_length_eq_zero same.symm
      simp [List.lt_irrefl]
  | cons x a ih =>
      cases b with
      | nil => simp at same
      | cons y b =>
          simp only [List.length_cons, Nat.add_right_cancel_iff] at same
          simp only [List.cons_append, List.cons_lt_cons_iff, ih same, List.cons.injEq]
          tauto

/-- The strings compare as their fronts do, and where these agree, as their rests do. -/
theorem compare_append {a b c d : Bytes} (same : a.length = b.length) :
    compareOfLessAndEq (a ++ c) (b ++ d) =
      (compareOfLessAndEq a b).then (compareOfLessAndEq c d) := by
  have equal : a ++ c = b ++ d ↔ a = b ∧ c = d := by
    constructor
    · exact fun h => List.append_inj h same
    · rintro ⟨rfl, rfl⟩
      rfl
  simp only [compareOfLessAndEq, append_lt_append_iff same, equal]
  rcases Std.lt_trichotomy a b with lower | rfl | higher
  · simp [lower]
  · simp [List.lt_irrefl]
  · have not_lower : ¬ a < b := List.lt_asymm higher
    have different : a ≠ b := by
      rintro rfl
      exact List.lt_irrefl a higher
    simp [not_lower, different]

theorem rangeEnd_eq_nil_iff {p : Bytes} : rangeEnd p = [] ↔ ∀ b ∈ p, b = 0xff := by
  induction p with
  | nil => simp [rangeEnd]
  | cons b rest ih =>
      rw [rangeEnd]
      cases tail : rangeEnd rest with
      | nil =>
          have rest_ff := ih.mp tail
          by_cases top : b = 0xff
          · simpa [top] using rest_ff
          · simp [top]
      | cons c more =>
          have rest_not : ¬ ∀ b ∈ rest, b = 0xff := fun all => by
            rw [ih.mpr all] at tail
            cases tail
          simp only [reduceCtorEq, List.mem_cons, false_iff]
          exact fun all => rest_not fun x hx => all x (.inr hx)

/-- Nothing but a longer string lies above a string of `0xff` bytes. -/
theorem prefix_iff_le_of_full {p k : Bytes} (full : ∀ b ∈ p, b = 0xff) : p <+: k ↔ p ≤ k := by
  induction p generalizing k with
  | nil => simp [List.nil_le]
  | cons b rest ih =>
      have top : b = 0xff := full b List.mem_cons_self
      have rest_full : ∀ b ∈ rest, b = 0xff := fun x hx => full x (List.mem_cons_of_mem _ hx)
      cases k with
      | nil => simp
      | cons x k =>
          -- no byte is above `0xff`, so the first bytes cannot decide
          have bound : ¬ b < x := by
            rw [top, UInt8.lt_iff_toNat_lt]
            have := x.toNat_lt
            simp only [UInt8.reduceToNat]
            omega
          rw [List.cons_prefix_cons, List.cons_le_cons_iff, ih rest_full]
          simp [bound]

/-- A byte that is not the last one has a next one. -/
theorem lt_add_one_iff {b x : UInt8} (room : b ≠ 0xff) : x < b + 1 ↔ x ≤ b := by
  have bound := b.toNat_lt
  have distinct : b.toNat ≠ 255 := fun e => room (UInt8.toNat_inj.mp e)
  rw [UInt8.lt_iff_toNat_lt, UInt8.le_iff_toNat_le, UInt8.toNat_add]
  simp only [UInt8.reduceToNat]
  omega

/-- Where `p` has a byte below `0xff`, the strings that start with `p` are a range. -/
theorem prefix_iff_range {p k : Bytes} (bounded : ∃ b ∈ p, b ≠ 0xff) :
    p <+: k ↔ p ≤ k ∧ k < rangeEnd p := by
  induction p generalizing k with
  | nil => simp at bounded
  | cons b rest ih =>
      cases k with
      | nil => simp
      | cons x k =>
          rw [List.cons_prefix_cons, List.cons_le_cons_iff, rangeEnd]
          cases tail : rangeEnd rest with
          | nil =>
              -- the rest is full and bounds nothing, so the range ends at the next first byte
              have full := rangeEnd_eq_nil_iff.mp tail
              have room : b ≠ 0xff := by
                obtain ⟨y, hy, below⟩ := bounded
                rcases List.mem_cons.mp hy with rfl | hy
                · exact below
                · exact absurd (full y hy) below
              rw [prefix_iff_le_of_full full, if_neg room, List.cons_lt_cons_iff,
                lt_add_one_iff room]
              simp only [List.not_lt_nil, and_false, or_false, UInt8.lt_iff_toNat_lt,
                UInt8.le_iff_toNat_le, ← UInt8.toNat_inj]
              grind
          | cons c more =>
              -- the end of the range lies in the rest, where the induction hypothesis has it
              have rest_bounded : ∃ y ∈ rest, y ≠ 0xff := by
                by_contra full
                simp only [not_exists, not_and, not_not] at full
                rw [rangeEnd_eq_nil_iff.mpr full] at tail
                cases tail
              have inner := ih (k := k) rest_bounded
              rw [tail] at inner
              rw [inner, List.cons_lt_cons_iff, UInt8.lt_iff_toNat_lt, UInt8.lt_iff_toNat_lt,
                ← UInt8.toNat_inj, ← UInt8.toNat_inj]
              grind

/-- A list in ascending order of keys is determined by its members. -/
theorem eq_of_ascending {α : Type} (key : α → Bytes) {as bs : List α}
    (ascending : as.Pairwise fun a b => key a < key b)
    (ascending' : bs.Pairwise fun a b => key a < key b) (same : ∀ a, a ∈ as ↔ a ∈ bs) :
    as = bs := by
  have irrefl : Std.Irrefl fun a b : α => key a < key b :=
    ⟨fun _ => List.lt_irrefl _⟩
  have antisymm : Std.Antisymm fun a b : α => key a < key b :=
    ⟨fun _ _ below above => absurd above (List.lt_asymm below)⟩
  exact ascending.eq_of_mem_iff ascending' same

end BridgePool.Bytes
