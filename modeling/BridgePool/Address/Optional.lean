import BridgePool.Address

/-!
# Addresses that may be missing

`OptionalAddress` keeps a flag beside the address. Values built here agree with their flag
(`ofOption`), but a value read from text may not; the flag wins wherever the address is asked
for.
-/

namespace BridgePool

/-- A flag that says whether the address is missing, and the address. -/
@[ext] structure OptionalAddress where
  isNil : Bool
  address : Option Address
  deriving DecidableEq

namespace OptionalAddress

/-- The value for an address that may be missing. -/
def ofOption (address : Option Address) : OptionalAddress :=
  ⟨address.isNone, address⟩

/-- No address. -/
def nil : OptionalAddress :=
  ofOption none

/-- The address, unless the flag says that it is missing. -/
def toOption (a : OptionalAddress) : Option Address :=
  if a.isNil then none else a.address

theorem toOption_ofOption (address : Option Address) : (ofOption address).toOption = address := by
  cases address <;> rfl

instance : Codec OptionalAddress where
  encode a := .record [("is_nil", Codec.encode a.isNil), ("optional", Codec.encode a.address)]
  decode? j := do
    let fields ← j.closedFields? ["is_nil", "optional"]
    let isNil ← Json.required? fields "is_nil"
    let address ← Json.optional? fields "optional"
    return ⟨isNil, address⟩

end OptionalAddress

end BridgePool
