import BridgePool.Transfer

/-!
# Batches

A batch lists the transfers that are relayed to the far chain together. It names them by id only;
the pool's record of a transfer stays the source of truth. A batch starts out open and moves once,
to one of three terminal states.
-/

namespace BridgePool

/-- How far a batch has come. -/
inductive BatchState where
  | open
  | executed
  | cancelled
  | timedOut
  deriving DecidableEq

namespace BatchState

/-- Whether the batch has left the open state. -/
def isTerminal (s : BatchState) : Bool :=
  s ≠ .open

/-- The name of a state. -/
def name : BatchState → String
  | .open => "open"
  | .executed => "executed"
  | .cancelled => "cancelled"
  | .timedOut => "timed_out"

/-- The state with this name. -/
def ofName? (s : String) : Option BatchState :=
  [.open, .executed, .cancelled, .timedOut].find? (·.name = s)

instance : Codec BatchState where
  encode s := .text s.name
  decode?
    | .text s => ofName? s
    | _ => none

end BatchState

/-- The transfers relayed together under one nonce. -/
@[ext] structure Batch where
  nonce : UInt64
  /-- The far chain's height past which the batch can no longer be executed. -/
  timeout : UInt64
  ids : List UInt64
  contract : Address
  /-- The host's height when the batch was made. -/
  block : UInt64
  state : BatchState
  deriving DecidableEq

namespace Batch

instance : Codec Batch where
  encode b := .record
    [("batch_nonce", Codec.encode b.nonce), ("batch_timeout", Codec.encode b.timeout),
      ("transaction_ids", Codec.encode b.ids), ("token_contract", Codec.encode b.contract),
      ("block", Codec.encode b.block), ("state", Codec.encode b.state)]
  decode? j := do
    let fields ← j.closedFields?
      ["batch_nonce", "batch_timeout", "transaction_ids", "token_contract", "block", "state"]
    let nonce ← Json.required? fields "batch_nonce"
    let timeout ← Json.required? fields "batch_timeout"
    let ids ← Json.required? fields "transaction_ids"
    let contract ← Json.required? fields "token_contract"
    let block ← Json.required? fields "block"
    let state ← Json.required? fields "state"
    return ⟨nonce, timeout, ids, contract, block, state⟩

end Batch

end BridgePool
