import BridgePool.Json.Codec

/-!
# Bank coins

A coin is an amount of one denom. Its JSON record is open: fields that a bank may add are passed
over.
-/

namespace BridgePool

/-- An amount of one denom. -/
@[ext] structure Coin where
  denom : String
  amount : CoinAmount
  deriving DecidableEq

namespace Coin

/-- The amount directly followed by the denom. -/
def display (c : Coin) : String :=
  Decimal.text c.amount.val ++ c.denom

instance : Codec Coin where
  encode c := .record [("denom", Codec.encode c.denom), ("amount", Codec.encode c.amount)]
  decode? j := do
    let fields ← j.openFields? ["denom", "amount"]
    let denom ← Json.required? fields "denom"
    let amount ← Json.required? fields "amount"
    return ⟨denom, amount⟩

end Coin

end BridgePool
