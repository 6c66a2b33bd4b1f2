import BridgePool.Address

/-!
# Voucher denoms

The bank holds vouchers of a bridged token under the denom `gravity` followed by the spelling of
the token's contract. `Denom.ofContract` and `Denom.contract` are inverse to each other, spelling
included.
-/

namespace BridgePool

/-- What is wrong with a text that is no voucher denom. -/
inductive DenomFault where
  | foreignPrefix (denom : String)
  | address (fault : AddressFault)
  deriving DecidableEq

/-- The wording of a denom fault. -/
def DenomFault.message : DenomFault → String
  | .foreignPrefix denom =>
    "Invalid gravity denom: denom prefix(" ++ denom ++ ") not equal to expected(gravity)"
  | .address fault =>
    "Invalid gravity denom: error(" ++ fault.message ++ ") validating ethereum contract address"

namespace Denom

/-- What every voucher denom starts with. -/
def mark : List Char :=
  "gravity".toList

/-- The voucher denom of a contract. -/
def ofContract (contract : Address) : String :=
  String.ofList (mark ++ contract.spelling.toList)

/-- The contract behind a voucher denom. -/
def contract (denom : String) : Except DenomFault Address :=
  if denom.toList.take mark.length = mark then
    (Address.parse (String.ofList (denom.toList.drop mark.length))).mapError .address
  else .error (.foreignPrefix denom)

theorem contract_ofContract (a : Address) : contract (ofContract a) = .ok a := by
  have front : (ofContract a).toList.take mark.length = mark := by simp [ofContract]
  have back : String.ofList ((ofContract a).toList.drop mark.length) = a.spelling := by
    simp [ofContract]
  rw [contract, if_pos front, back, Address.parse_spelling]
  rfl

end Denom

end BridgePool
