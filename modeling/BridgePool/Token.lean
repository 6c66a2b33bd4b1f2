import BridgePool.Address.Optional
import BridgePool.Coin
import BridgePool.Denom

/-!
# Token amounts

A `Token` is an amount of one bridged token. Amounts have the width of the far chain, so taking
a coin in is lossless (`ofCoin`) and giving one out is checked (`coin`). Adding asks for the same
contract, by bytes, and keeps the spelling of the first operand.
-/

namespace BridgePool

/-- An amount of the token of one contract. -/
@[ext] structure Token where
  amount : TokenAmount
  contract : Address
  deriving DecidableEq

/-- What can go wrong with addresses, denoms and token amounts. -/
inductive TokenFault where
  | address (fault : AddressFault)
  | denom (fault : DenomFault)
  | mismatch (expected got : Address)
  | overflow
  | nilAddress
  deriving DecidableEq

/-- The wording of a token fault. -/
def TokenFault.message : TokenFault → String
  | .address fault => fault.message
  | .denom fault => fault.message
  | .mismatch expected got =>
    "Token contract mismatch: expected " ++ expected.spelling ++ ", got " ++ got.spelling
  | .overflow => "Token amount overflow"
  | .nilAddress => "Optional Ethereum address is nil"

namespace Token

/-- The token value of a voucher coin. -/
def ofCoin (c : Coin) : Except TokenFault Token :=
  match Denom.contract c.denom with
  | .ok contract => .ok ⟨c.amount.widen (by decide), contract⟩
  | .error fault => .error (.denom fault)

/-- The voucher denom of the token. -/
def denom (t : Token) : String :=
  Denom.ofContract t.contract

/-- The voucher coin of this amount, if a coin can hold it. -/
def coin (t : Token) : Except TokenFault Coin :=
  match t.amount.narrow? 128 with
  | some amount => .ok ⟨t.denom, amount⟩
  | none => .error .overflow

/-- The sum of two amounts of the same token. -/
def add (t u : Token) : Except TokenFault Token :=
  if t.contract.Same u.contract then
    match t.amount.add? u.amount with
    | some amount => .ok ⟨amount, t.contract⟩
    | none => .error .overflow
  else .error (.mismatch t.contract u.contract)

/-- The amount as a machine word, if it fits. -/
def word (t : Token) : Except TokenFault UInt64 :=
  if t.amount.val < UInt64.size then .ok (UInt64.ofNat t.amount.val) else .error .overflow

/-- Whether two token values are of one contract and one amount, whatever the spelling. -/
def Same (t u : Token) : Prop :=
  t.amount = u.amount ∧ t.contract.Same u.contract

instance (t u : Token) : Decidable (Same t u) :=
  inferInstanceAs (Decidable (_ ∧ _))

instance : Codec Token where
  encode t := .record
    [("amount", Codec.encode t.amount), ("contract", Codec.encode t.contract)]
  decode? j := do
    let fields ← j.closedFields? ["amount", "contract"]
    let amount ← Json.required? fields "amount"
    let contract ← Json.required? fields "contract"
    return ⟨amount, contract⟩

end Token

/-- The address of an `OptionalAddress`, which must be there. -/
def OptionalAddress.get (a : OptionalAddress) : Except TokenFault Address :=
  match a.toOption with
  | some address => .ok address
  | none => .error .nilAddress

end BridgePool
