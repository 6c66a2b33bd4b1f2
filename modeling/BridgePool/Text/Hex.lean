import BridgePool.Bytes

/-!
# Hexadecimal text

* `Hex.digit`, `Hex.value?` — one digit, written in lower case and read in either case;
* `Hex.ofBytes`, `Hex.toBytes?` — a byte string as pairs of digits, and back
  (`toBytes?_ofBytes`).
-/

namespace BridgePool.Hex

/-- The lower-case digit of a number below sixteen. -/
def digit (n : Nat) : Char :=
  if n < 10 then Char.ofNat (48 + n) else Char.ofNat (87 + n)

/-- What a digit stands for, in either case; `none` for any other character. -/
def value? (c : Char) : Option Nat :=
  if '0' ≤ c ∧ c ≤ '9' then some (c.toNat - 48)
  else if 'a' ≤ c ∧ c ≤ 'f' then some (c.toNat - 87)
  else if 'A' ≤ c ∧ c ≤ 'F' then some (c.toNat - 55)
  else none

/-- A hexadecimal digit of either case. -/
def isDigit (c : Char) : Bool := (value? c).isSome

/-- The byte written by two digits. -/
def byte? (high low : Char) : Option UInt8 := do
  let h ← value? high
  let l ← value? low
  return UInt8.ofNat (16 * h + l)

/-- Two lower-case digits a byte. -/
def ofBytes : Bytes → List Char
  | [] => []
  | b :: rest => digit (b.toNat / 16) :: digit (b.toNat % 16) :: ofBytes rest

/-- Reads pairs of digits; refuses an odd digit out and any other character. -/
def toBytes? : List Char → Option Bytes
  | [] => some []
  | [_] => none
  | h :: l :: rest => do
    let b ← byte? h l
    let tail ← toBytes? rest
    return b :: tail

theorem value?_digit : ∀ n, n < 16 → value? (digit n) = some n := by decide

theorem byte?_digit (b : UInt8) : byte? (digit (b.toNat / 16)) (digit (b.toNat % 16)) = some b := by
  have high : b.toNat / 16 < 16 := by have := b.toNat_lt; omega
  have low : b.toNat % 16 < 16 := Nat.mod_lt _ (by decide)
  have value : 16 * (b.toNat / 16) + b.toNat % 16 = b.toNat := Nat.div_add_mod _ _
  simp only [byte?, value?_digit _ high, value?_digit _ low, bind, Option.bind, pure, value,
    UInt8.ofNat_toNat]

theorem toBytes?_ofBytes (b : Bytes) : toBytes? (ofBytes b) = some b := by
  induction b with
  | nil => rfl
  | cons x rest ih => simp [ofBytes, toBytes?, byte?_digit, ih]

theorem isDigit_digit : ∀ n, n < 16 → isDigit (digit n) = true := by decide

theorem isDigit_of_mem_ofBytes {b : Bytes} {c : Char} (h : c ∈ ofBytes b) : isDigit c = true := by
  induction b with
  | nil => simp [ofBytes] at h
  | cons x rest ih =>
    have high : x.toNat / 16 < 16 := by have := x.toNat_lt; omega
    have low : x.toNat % 16 < 16 := Nat.mod_lt _ (by decide)
    rcases List.mem_cons.mp h with rfl | h
    · exact isDigit_digit _ high
    rcases List.mem_cons.mp h with rfl | h
    · exact isDigit_digit _ low
    · exact ih h

@[simp] theorem length_ofBytes (b : Bytes) : (ofBytes b).length = 2 * b.length := by
  induction b with
  | nil => rfl
  | cons x rest ih => simp [ofBytes, ih]; omega

/-- Digits in pairs always read. -/
theorem toBytes?_isSome {cs : List Char} {n : Nat} (even : cs.length = 2 * n)
    (digits : ∀ c ∈ cs, isDigit c = true) : (toBytes? cs).isSome = true := by
  induction n generalizing cs with
  | zero =>
    obtain rfl : cs = [] := List.eq_nil_of_length_eq_zero (by simpa using even)
    rfl
  | succ n ih =>
    match cs, even with
    | h :: l :: rest, even =>
      have rest_some := @ih rest (by simp at even; omega)
        (fun c hc => digits c (by simp [hc]))
      have hh := digits h (by simp)
      have hl := digits l (by simp)
      simp only [isDigit, Option.isSome_iff_exists] at hh hl rest_some ⊢
      obtain ⟨vh, hh⟩ := hh
      obtain ⟨vl, hl⟩ := hl
      obtain ⟨tail, ht⟩ := rest_some
      exact ⟨_, by simp [toBytes?, byte?, hh, hl, ht]; rfl⟩

theorem length_of_toBytes? {cs : List Char} {b : Bytes} (h : toBytes? cs = some b) :
    cs.length = 2 * b.length := by
  fun_induction toBytes? cs generalizing b with
  | case1 => simp at h; simp [h]
  | case2 => simp at h
  | case3 high low rest ih =>
    simp only [bind, Option.bind_eq_some_iff, pure, Option.some.injEq] at h
    obtain ⟨x, _, tail, ht, rfl⟩ := h
    simp [ih ht]; omega

end BridgePool.Hex
