import BridgePool.Json.Codec
import BridgePool.Text.Hex

/-!
# Contract and account addresses of the far chain

An address is a spelling: `0x` and forty hexadecimal digits of either case. The twenty bytes that
the digits write (`Address.raw`) say which contract is meant; two spellings of the same bytes
mean the same contract, yet stay apart as values, because a denom is built from the spelling.

* `Address.parse` accepts exactly the spellings, and names the first thing wrong with any other
  text;
* `Address.ofRaw` is the lower-case spelling of given bytes (`raw_ofRaw`).
-/

namespace BridgePool

/-- The twenty bytes of an address. -/
abbrev RawAddress := { b : Bytes // b.length = 20 }

/-- A spelled address: the forty digits after `0x`. -/
@[ext] structure Address where
  /-- The digits, in the case they were given. -/
  digits : List Char
  length_digits : digits.length = 40
  hex_digits : ∀ c ∈ digits, Hex.isDigit c = true
  deriving DecidableEq

/-- What is wrong with a text that is no address. -/
inductive AddressFault where
  | empty
  | unmarked (text : String)
  | notHex (text : String)
  | wrongLength (text : String)
  deriving DecidableEq

/-- The wording of an address fault, without its heading. -/
def AddressFault.reason : AddressFault → String
  | .empty => "empty"
  | .unmarked text => "address(" ++ text ++ ") is missing the 0x prefix"
  | .notHex text => "address(" ++ text ++ ") contains non-hex characters"
  | .wrongLength text =>
    "address(" ++ text ++ ") of the wrong length exp(42) actual("
      ++ Decimal.text text.utf8ByteSize ++ ")"

/-- The wording of an address fault. -/
def AddressFault.message (f : AddressFault) : String :=
  "Invalid Ethereum address: " ++ f.reason

namespace Address

/-- The address with this spelling. The checks go from the front: the text is there, it starts
with `0x`, only digits follow, and there are forty of them. -/
def parse (text : String) : Except AddressFault Address :=
  match text.toList with
  | [] => .error .empty
  | '0' :: 'x' :: digits =>
    if hex : digits.all Hex.isDigit = true then
      if length : digits.length = 40 then .ok ⟨digits, length, List.all_eq_true.mp hex⟩
      else .error (.wrongLength text)
    else .error (.notHex text)
  | _ => .error (.unmarked text)

/-- The text of an address: what `parse` reads. -/
def spelling (a : Address) : String :=
  String.ofList ('0' :: 'x' :: a.digits)

/-- The bytes that the digits write. -/
def raw (a : Address) : RawAddress :=
  have some_bytes := Hex.toBytes?_isSome (n := 20) a.length_digits a.hex_digits
  ⟨(Hex.toBytes? a.digits).get some_bytes, by
    have two := Hex.length_of_toBytes? (Option.some_get some_bytes).symm
    have forty := a.length_digits
    omega⟩

/-- The lower-case spelling of given bytes. -/
def ofRaw (b : RawAddress) : Address where
  digits := Hex.ofBytes b.val
  length_digits := by rw [Hex.length_ofBytes, b.property]
  hex_digits _ h := Hex.isDigit_of_mem_ofBytes h

/-- The address of twenty zero bytes. -/
def zero : Address :=
  ofRaw ⟨List.replicate 20 0, List.length_replicate⟩

/-- Whether every byte is zero. -/
def isZero (a : Address) : Bool :=
  a.raw.val.all (· = 0)

/-- Whether two spellings mean the same address. -/
def Same (a b : Address) : Prop :=
  a.raw = b.raw

instance (a b : Address) : Decidable (Same a b) :=
  inferInstanceAs (Decidable (a.raw = b.raw))

/-- Addresses compare by their bytes. -/
def order (a b : Address) : Ordering :=
  compareOfLessAndEq a.raw.val b.raw.val

/-- Orders addresses by their bytes; spellings of one address stay in the order they came. -/
def sorted (as : List Address) : List Address :=
  as.mergeSort fun a b => a.raw.val ≤ b.raw.val

theorem raw_ofRaw (b : RawAddress) : (ofRaw b).raw = b := by
  apply Subtype.ext
  simp only [raw, ofRaw, Hex.toBytes?_ofBytes, Option.get_some]

theorem parse_spelling (a : Address) : parse a.spelling = .ok a := by
  simp only [parse, spelling, String.toList_ofList]
  rw [dif_pos (List.all_eq_true.mpr a.hex_digits), dif_pos a.length_digits]

instance : Codec Address where
  encode a := .text a.spelling
  decode?
    | .text s => (parse s).toOption
    | _ => none

end Address

end BridgePool
