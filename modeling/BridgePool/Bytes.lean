/-!
# Byte strings

Keys and rows of the store are byte strings, ordered as `List` orders them: bytewise, a proper
start of a string below the string itself.

* `Bytes.bigEndian width n` — the last `width` base-256 digits of `n`, highest first;
* `Bytes.toNat` — the number a big-endian byte string stands for;
* `Bytes.rangeEnd p` — the bound that closes the range of all strings starting with `p`.
-/

namespace BridgePool

/-- A byte string. -/
abbrev Bytes := List UInt8

namespace Bytes

/-- Decides the order byte by byte, up to the first difference. -/
instance decidableLt : (a b : Bytes) → Decidable (a < b)
  | [], [] => isFalse (List.not_lt_nil [])
  | [], _ :: _ => isTrue (List.nil_lt_cons _ _)
  | _ :: _, [] => isFalse (List.not_lt_nil _)
  | x :: a, y :: b =>
    if lower : x < y then isTrue (List.cons_lt_cons_iff.mpr (.inl lower))
    else if same : x = y then
      match decidableLt a b with
      | isTrue h => isTrue (List.cons_lt_cons_iff.mpr (.inr ⟨same, h⟩))
      | isFalse h => isFalse fun k =>
          (List.cons_lt_cons_iff.mp k).elim (fun l => lower l) fun r => h r.2
    else isFalse fun k =>
      (List.cons_lt_cons_iff.mp k).elim (fun l => lower l) fun r => same r.1

/-- Decides equality byte by byte, up to the first difference. -/
instance decidableEq : (a b : Bytes) → Decidable (a = b)
  | [], [] => isTrue rfl
  | [], _ :: _ => isFalse nofun
  | _ :: _, [] => isFalse nofun
  | x :: a, y :: b =>
    if same : x = y then
      match decidableEq a b with
      | isTrue h => isTrue (same ▸ h ▸ rfl)
      | isFalse h => isFalse fun k => h (List.cons.inj k).2
    else isFalse fun k => same (List.cons.inj k).1

/-- The last `width` base-256 digits of `n`, highest first. -/
def bigEndian : (width n : Nat) → Bytes
  | 0, _ => []
  | width + 1, n => UInt8.ofNat (n >>> (8 * width)) :: bigEndian width n

/-- The number whose base-256 digits are the bytes, highest first. -/
def toNat : Bytes → Nat
  | [] => 0
  | b :: rest => b.toNat <<< (8 * rest.length) + toNat rest

/-- The least byte string above every string that starts with `p`: trailing `0xff` bytes are
dropped and the last remaining byte is raised by one. It is empty when `p` holds nothing but
`0xff`, where no bound exists. -/
def rangeEnd : Bytes → Bytes
  | [] => []
  | b :: rest =>
    match rangeEnd rest with
    | [] => if b = 0xff then [] else [b + 1]
    | c :: tail => b :: c :: tail

@[simp] theorem length_bigEndian (width n : Nat) : (bigEndian width n).length = width := by
  induction width with
  | zero => rfl
  | succ width ih => simp [bigEndian, ih]

end Bytes

end BridgePool
