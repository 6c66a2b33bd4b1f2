import BridgePool.Token

/-!
# Transfers

A transfer is one send to the far chain, waiting in the pool or carried by an open batch. Its
`total` is what the escrow holds for it.
-/

namespace BridgePool

/-- Where a transfer waits. -/
inductive TransferState where
  /-- In the pool. -/
  | unbatched
  /-- In the batch with this nonce. -/
  | inBatch (nonce : UInt64)
  deriving DecidableEq

namespace TransferState

instance : Codec TransferState where
  encode
    | .unbatched => .text "unbatched"
    | .inBatch nonce => Json.variant "in_batch" [("batch_nonce", Codec.encode nonce)]
  decode?
    | .text s => if s = "unbatched" then some .unbatched else none
    | j => do
      let (name, contents) ← j.variant?
      if name = "in_batch" then
        return .inBatch (← Json.variantField? "batch_nonce" contents)
      else none

end TransferState

/-- One send to the far chain. -/
@[ext] structure Transfer where
  id : UInt64
  sender : String
  destination : Address
  token : Token
  fee : Token
  state : TransferState
  deriving DecidableEq

namespace Transfer

/-- What the escrow holds for the transfer: its amount and its fee. -/
def total (t : Transfer) : Except TokenFault Token :=
  t.token.add t.fee

instance : Codec Transfer where
  encode t := .record
    [("id", Codec.encode t.id), ("sender", Codec.encode t.sender),
      ("dest_address", Codec.encode t.destination), ("erc20_token", Codec.encode t.token),
      ("erc20_fee", Codec.encode t.fee), ("state", Codec.encode t.state)]
  decode? j := do
    let fields ← j.closedFields?
      ["id", "sender", "dest_address", "erc20_token", "erc20_fee", "state"]
    let id ← Json.required? fields "id"
    let sender ← Json.required? fields "sender"
    let destination ← Json.required? fields "dest_address"
    let token ← Json.required? fields "erc20_token"
    let fee ← Json.required? fields "erc20_fee"
    let state ← Json.required? fields "state"
    return ⟨id, sender, destination, token, fee, state⟩

end Transfer

end BridgePool
