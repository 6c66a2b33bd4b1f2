import BridgePool.Address

/-!
# Addresses with their bytes beside them

A `KeptAddress` is the text that an address was given as, and beside it the bytes that the text
stands for. Text and bytes may come from two sources, so that they need not belong together:
`KeptAddress.validate` reads the text once more and compares.
-/

namespace BridgePool

/-- A text, and the bytes of the address that it spells. -/
@[ext] structure KeptAddress where
  text : String
  raw : RawAddress
  deriving DecidableEq

/-- What is wrong with a text and bytes that do not belong together. -/
inductive KeptAddressFault where
  | unreadable (fault : AddressFault)
  | otherBytes (text : String)
  deriving DecidableEq

/-- The wording of such a fault. -/
def KeptAddressFault.message : KeptAddressFault → String
  | .unreadable fault => fault.message
  | .otherBytes text =>
    "Invalid Ethereum address: address(" ++ text ++ ") does not match its raw bytes"

namespace KeptAddress

/-- The text as it is given, with the bytes that its digits write. -/
def ofText (text : String) : Except AddressFault KeptAddress :=
  (Address.parse text).map fun a => ⟨text, a.raw⟩

/-- The bytes as they are given, with their digits in lower case. -/
def ofRaw (b : RawAddress) : KeptAddress :=
  ⟨String.ofList ('0' :: 'x' :: Hex.ofBytes b.val), b⟩

/-- Twenty zero bytes. -/
def zero : KeptAddress :=
  ofRaw Address.zero.raw

/-- Reads the text again, and compares the bytes. -/
def validate (k : KeptAddress) : Except KeptAddressFault Unit :=
  match Address.parse k.text with
  | .ok a => if a.raw = k.raw then .ok () else .error (.otherBytes k.text)
  | .error fault => .error (.unreadable fault)

/-- The text alone is written, and it is checked again when it is read. -/
instance : Codec KeptAddress where
  encode k := .text k.text
  decode?
    | .text s => (ofText s).toOption
    | _ => none

end KeptAddress

/-- The text and the bytes of an address. -/
def Address.kept (a : Address) : KeptAddress :=
  ⟨a.spelling, a.raw⟩

end BridgePool
