import BridgePool.Json.Basic
import BridgePool.Text.Hex

/-!
# Reading quoted texts

A quoted text ends at the first quote that no backslash stands before. What lies between the
quotes (`quotedBody`) is taken as it is when it holds no backslash; else its escapes are resolved
(`unescape?`), and then no character below U+0020 may stand in it unescaped.

An escaped code unit above the basic plane is one half of a character. The high surrogate is held
until the low one comes; other escapes may stand between the two and go before the character, but
nothing unescaped may.
-/

namespace BridgePool.Json

/-- The code unit of four hexadecimal digits. -/
def unit? (a b c d : Char) : Option Nat := do
  let w ← Hex.value? a
  let x ← Hex.value? b
  let y ← Hex.value? c
  let z ← Hex.value? d
  return ((w * 16 + x) * 16 + y) * 16 + z

/-- The character of a code unit outside the surrogate range. -/
def plainUnit? (u : Nat) : Option Char :=
  if h : u.isValidChar then some (Char.ofNatAux u h) else none

/-- The character of a high surrogate and a low one. -/
def surrogatePair? (high low : Nat) : Option Char :=
  if 0xD800 ≤ high ∧ high < 0xDC00 ∧ 0xDC00 ≤ low ∧ low < 0xE000 then
    plainUnit? (0x10000 + (high - 0xD800) * 0x400 + (low - 0xDC00))
  else none

/-- The character of a one-letter escape. -/
def shortEscape? (c : Char) : Option Char :=
  if c = '"' then some '"'
  else if c = '\\' then some '\\'
  else if c = '/' then some '/'
  else if c = 'b' then some (Char.ofNat 8)
  else if c = 't' then some '\t'
  else if c = 'n' then some '\n'
  else if c = 'f' then some (Char.ofNat 12)
  else if c = 'r' then some '\r'
  else none

/-- Resolves the escapes of a text, with a surrogate `held` that still waits for its partner. -/
def unescape? : (held : Option Nat) → List Char → Option (List Char)
  | none, [] => some []
  | some _, [] => none
  | held, '\\' :: 'u' :: a :: b :: c :: d :: rest =>
    match unit? a b c d with
    | none => none
    | some unit =>
      match plainUnit? unit, held with
      | some ch, held => (unescape? held rest).map (ch :: ·)
      | none, none => unescape? (some unit) rest
      | none, some high =>
        match surrogatePair? high unit with
        | some ch => (unescape? none rest).map (ch :: ·)
        | none => none
  | held, '\\' :: c :: rest =>
    match shortEscape? c with
    | some ch => (unescape? held rest).map (ch :: ·)
    | none => none
  | none, c :: rest =>
    if c = '\\' || isControl c then none else (unescape? none rest).map (c :: ·)
  | some _, _ :: _ => none

/-- What stands before the closing quote, and what follows it. -/
def quotedBody : List Char → Option (List Char × List Char)
  | [] => none
  | '"' :: rest => some ([], rest)
  | '\\' :: c :: rest => (quotedBody rest).map fun (body, rest) => ('\\' :: c :: body, rest)
  | c :: rest => (quotedBody rest).map fun (body, rest) => (c :: body, rest)

/-- The text that stands between two quotes. -/
def ofBody? (body : List Char) : Option (List Char) :=
  if body.contains '\\' then unescape? none body else some body

/-- A text, opening quote included, and what follows it. -/
def text? : List Char → Option (String × List Char)
  | '"' :: rest => do
    let (body, rest) ← quotedBody rest
    let text ← ofBody? body
    return (String.ofList text, rest)
  | _ => none

end BridgePool.Json
