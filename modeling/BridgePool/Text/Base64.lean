import BridgePool.Bytes

/-!
# Base64 text

The standard alphabet. `encode` pads every text to a multiple of four characters; `decode?`
takes padding or leaves it, and refuses a last character whose unused bits are not zero, so each
byte string has one unpadded spelling.
-/

namespace BridgePool.Base64

/-- The character of a number below sixty-four. -/
def symbol (n : Nat) : Char :=
  if n < 26 then Char.ofNat (65 + n)
  else if n < 52 then Char.ofNat (71 + n)
  else if n < 62 then Char.ofNat (n - 4)
  else if n = 62 then '+' else '/'

/-- What a character of the alphabet stands for. -/
def value? (c : Char) : Option Nat :=
  if 'A' ≤ c ∧ c ≤ 'Z' then some (c.toNat - 65)
  else if 'a' ≤ c ∧ c ≤ 'z' then some (c.toNat - 71)
  else if '0' ≤ c ∧ c ≤ '9' then some (c.toNat + 4)
  else if c = '+' then some 62
  else if c = '/' then some 63
  else none

/-- Groups of three bytes as four characters each, the last group padded. -/
def encode : Bytes → List Char
  | [] => []
  | [a] =>
    [symbol (a.toNat / 4), symbol (a.toNat % 4 * 16), '=', '=']
  | [a, b] =>
    [symbol (a.toNat / 4), symbol (a.toNat % 4 * 16 + b.toNat / 16),
      symbol (b.toNat % 16 * 4), '=']
  | a :: b :: c :: rest =>
    symbol (a.toNat / 4) :: symbol (a.toNat % 4 * 16 + b.toNat / 16)
      :: symbol (b.toNat % 16 * 4 + c.toNat / 64) :: symbol (c.toNat % 64) :: encode rest

/-- The byte of two characters; the four bits past it must be zero. -/
def one? (x y : Char) : Option Bytes := do
  let p ← value? x
  let q ← value? y
  if q % 16 = 0 then return [UInt8.ofNat (p * 4 + q / 16)] else none

/-- The two bytes of three characters; the two bits past them must be zero. -/
def two? (x y z : Char) : Option Bytes := do
  let p ← value? x
  let q ← value? y
  let r ← value? z
  if r % 4 = 0 then
    return [UInt8.ofNat (p * 4 + q / 16), UInt8.ofNat (q % 16 * 16 + r / 4)]
  else none

/-- The three bytes of four characters. -/
def three? (x y z w : Char) : Option Bytes := do
  let p ← value? x
  let q ← value? y
  let r ← value? z
  let s ← value? w
  return [UInt8.ofNat (p * 4 + q / 16), UInt8.ofNat (q % 16 * 16 + r / 4),
    UInt8.ofNat (r % 4 * 64 + s)]

/-- Reads groups of four characters; the last group may be short, or padded up to four. -/
def decode? : List Char → Option Bytes
  | [] => some []
  | [_] => none
  | [x, y] => one? x y
  | [x, y, z] => if z = '=' then one? x y else two? x y z
  | [x, y, z, w] =>
    if w = '=' then
      if z = '=' then one? x y else two? x y z
    else three? x y z w
  | x :: y :: z :: w :: rest => do
    let head ← three? x y z w
    let tail ← decode? rest
    return head ++ tail

theorem value?_symbol : ∀ n, n < 64 → value? (symbol n) = some n := by decide

theorem symbol_ne_pad : ∀ n, n < 64 → symbol n ≠ '=' := by decide

/-- Decoding gives back what encoding wrote. -/
theorem decode?_encode (b : Bytes) : decode? (encode b) = some b := by
  fun_induction encode b with
  | case1 => rfl
  | case2 a =>
    have ha := a.toNat_lt
    have high : a.toNat / 4 < 64 := by omega
    have low : a.toNat % 4 * 16 < 64 := by omega
    have pad : a.toNat % 4 * 16 % 16 = 0 := by omega
    have whole : a.toNat / 4 * 4 + a.toNat % 4 * 16 / 16 = a.toNat := by omega
    simp only [decode?, if_true, one?, value?_symbol _ high, value?_symbol _ low, bind,
      Option.bind, pad, pure, whole, UInt8.ofNat_toNat]
  | case3 a b =>
    have ha := a.toNat_lt
    have hb := b.toNat_lt
    have h1 : a.toNat / 4 < 64 := by omega
    have h2 : a.toNat % 4 * 16 + b.toNat / 16 < 64 := by omega
    have h3 : b.toNat % 16 * 4 < 64 := by omega
    have pad : b.toNat % 16 * 4 % 4 = 0 := by omega
    have first : a.toNat / 4 * 4 + (a.toNat % 4 * 16 + b.toNat / 16) / 16 = a.toNat := by omega
    have second : (a.toNat % 4 * 16 + b.toNat / 16) % 16 * 16 + b.toNat % 16 * 4 / 4 = b.toNat := by
      omega
    simp only [decode?, symbol_ne_pad _ h3, if_true, if_false, two?, value?_symbol _ h1,
      value?_symbol _ h2, value?_symbol _ h3, bind, Option.bind, pad, pure, first, second,
      UInt8.ofNat_toNat]
  | case4 a b c rest ih =>
    have ha := a.toNat_lt
    have hb := b.toNat_lt
    have hc := c.toNat_lt
    have h1 : a.toNat / 4 < 64 := by omega
    have h2 : a.toNat % 4 * 16 + b.toNat / 16 < 64 := by omega
    have h3 : b.toNat % 16 * 4 + c.toNat / 64 < 64 := by omega
    have h4 : c.toNat % 64 < 64 := by omega
    have first : a.toNat / 4 * 4 + (a.toNat % 4 * 16 + b.toNat / 16) / 16 = a.toNat := by omega
    have second : (a.toNat % 4 * 16 + b.toNat / 16) % 16 * 16
        + (b.toNat % 16 * 4 + c.toNat / 64) / 4 = b.toNat := by omega
    have third : (b.toNat % 16 * 4 + c.toNat / 64) % 4 * 64 + c.toNat % 64 = c.toNat := by omega
    have group : three? (symbol (a.toNat / 4)) (symbol (a.toNat % 4 * 16 + b.toNat / 16))
        (symbol (b.toNat % 16 * 4 + c.toNat / 64)) (symbol (c.toNat % 64)) = some [a, b, c] := by
      simp only [three?, value?_symbol _ h1, value?_symbol _ h2, value?_symbol _ h3,
        value?_symbol _ h4, bind, Option.bind, pure, first, second, third, UInt8.ofNat_toNat]
    cases tail : encode rest with
    | nil =>
      rw [tail] at ih
      obtain rfl : rest = [] := by simpa [decode?] using ih.symm
      simp [decode?, symbol_ne_pad _ h4, group]
    | cons t ts =>
      rw [tail] at ih
      simp [decode?, group, ih]

end BridgePool.Base64
