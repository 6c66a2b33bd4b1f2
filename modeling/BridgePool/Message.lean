import BridgePool.Config
import BridgePool.Token

/-!
# Messages

What the bridge can be asked: `Setup` once, `Command` by anyone, `HostEvent` by the host itself,
`Query` without changing anything. Each has its JSON form: records and variants are closed, a
missing optional field counts as `null`.
-/

namespace BridgePool

/-- How a bridge is set up. -/
@[ext] structure Setup where
  admin : String
  batchSize : Option UInt32
  timeoutBlocks : Option UInt64
  bridge : Option String
  deriving DecidableEq

instance : Codec Setup where
  encode m := .record
    [("admin", Codec.encode m.admin), ("batch_size", Codec.encode m.batchSize),
      ("batch_timeout_blocks", Codec.encode m.timeoutBlocks),
      ("bridge_ethereum_address", Codec.encode m.bridge)]
  decode? j := do
    let fields ← j.closedFields?
      ["admin", "batch_size", "batch_timeout_blocks", "bridge_ethereum_address"]
    let admin ← Json.required? fields "admin"
    let batchSize ← Json.optional? fields "batch_size"
    let timeoutBlocks ← Json.optional? fields "batch_timeout_blocks"
    let bridge ← Json.optional? fields "bridge_ethereum_address"
    return ⟨admin, batchSize, timeoutBlocks, bridge⟩

/-- A move to the present release; there is nothing to choose. -/
inductive Upgrade where
  | upgrade
  deriving DecidableEq

instance : Codec Upgrade where
  encode _ := .record []
  decode? j := do
    let _ ← j.closedFields? []
    return .upgrade

/-- What anyone can ask the bridge to do. -/
inductive Command where
  /-- Send vouchers to an address of the far chain. -/
  | send (destination : String) (amount fee : Coin)
  /-- Take back a send that still waits. -/
  | cancelSend (id : UInt64)
  /-- Cut a batch of one token. -/
  | requestBatch (contract : String)
  /-- Abandon an open batch. -/
  | cancelBatch (nonce : UInt64)
  /-- Change parameters; what is not given stays. -/
  | configure (batchSize : Option UInt32) (timeoutBlocks : Option UInt64)
      (bridge : Option String)
  | pause
  | unpause
  /-- Propose a new administrator. -/
  | propose (candidate : String)
  /-- Take over as administrator. -/
  | accept
  /-- Withdraw the proposal. -/
  | withdraw
  deriving DecidableEq

instance : Codec Command where
  encode
    | .send destination amount fee =>
      Json.variant "send_to_eth"
        [("dest_address", Codec.encode destination), ("amount", Codec.encode amount),
          ("fee", Codec.encode fee)]
    | .cancelSend id =>
      Json.variant "cancel_send_to_eth" [("transaction_id", Codec.encode id)]
    | .requestBatch contract =>
      Json.variant "request_batch" [("token_contract", Codec.encode contract)]
    | .cancelBatch nonce => Json.variant "cancel_batch" [("batch_nonce", Codec.encode nonce)]
    | .configure batchSize timeoutBlocks bridge =>
      Json.variant "update_config"
        [("batch_size", Codec.encode batchSize),
          ("batch_timeout_blocks", Codec.encode timeoutBlocks),
          ("bridge_ethereum_address", Codec.encode bridge)]
    | .pause => Json.variant "pause" []
    | .unpause => Json.variant "unpause" []
    | .propose candidate => Json.variant "propose_admin" [("new_admin", Codec.encode candidate)]
    | .accept => Json.variant "accept_admin" []
    | .withdraw => Json.variant "cancel_admin_proposal" []
  decode? j := do
    let (name, contents) ← j.variant?
    match name with
    | "send_to_eth" =>
      let fields ← contents.closedFields? ["dest_address", "amount", "fee"]
      let destination ← Json.required? fields "dest_address"
      let amount ← Json.required? fields "amount"
      let fee ← Json.required? fields "fee"
      return .send destination amount fee
    | "cancel_send_to_eth" => (Json.variantField? "transaction_id" contents).map .cancelSend
    | "request_batch" => (Json.variantField? "token_contract" contents).map .requestBatch
    | "cancel_batch" => (Json.variantField? "batch_nonce" contents).map .cancelBatch
    | "update_config" =>
      let fields ← contents.closedFields?
        ["batch_size", "batch_timeout_blocks", "bridge_ethereum_address"]
      let batchSize ← Json.optional? fields "batch_size"
      let timeoutBlocks ← Json.optional? fields "batch_timeout_blocks"
      let bridge ← Json.optional? fields "bridge_ethereum_address"
      return .configure batchSize timeoutBlocks bridge
    | "pause" => contents.emptyVariant?.map fun _ => .pause
    | "unpause" => contents.emptyVariant?.map fun _ => .unpause
    | "propose_admin" => (Json.variantField? "new_admin" contents).map .propose
    | "accept_admin" => contents.emptyVariant?.map fun _ => .accept
    | "cancel_admin_proposal" => contents.emptyVariant?.map fun _ => .withdraw
    | _ => none

/-- What the host reports. -/
inductive HostEvent where
  /-- The end of a block, with the height of the far chain. -/
  | endBlock (height : UInt64)
  /-- A batch was executed on the far chain. -/
  | batchExecuted (nonce : UInt64)
  deriving DecidableEq

instance : Codec HostEvent where
  encode
    | .endBlock height =>
      Json.variant "end_block" [("eth_block_height", Codec.encode height)]
    | .batchExecuted nonce =>
      Json.variant "batch_executed" [("batch_nonce", Codec.encode nonce)]
  decode? j := do
    let (name, contents) ← j.variant?
    match name with
    | "end_block" => (Json.variantField? "eth_block_height" contents).map .endBlock
    | "batch_executed" => (Json.variantField? "batch_nonce" contents).map .batchExecuted
    | _ => none

/-- What the bridge can be asked about. -/
inductive Query where
  /-- A page of the whole pool. -/
  | waiting (after : Option Bytes) (limit : Option UInt32)
  /-- A page of one contract's listing. -/
  | waitingOf (contract : String) (after : Option Bytes) (limit : Option UInt32)
  | transfer (id : UInt64)
  /-- What batches of some size would earn. -/
  | fees (count : Option UInt32)
  | pendingBatch (contract : String)
  | batch (nonce : UInt64)
  | batches (after : Option UInt64) (limit : Option UInt32)
  /-- The contract behind a denom. -/
  | contractOf (denom : String)
  /-- The denom of a contract. -/
  | denomOf (contract : String)
  /-- What the escrow holds of a denom. -/
  | locked (denom : String)
  | config
  | observedHeight
  | proposal
  deriving DecidableEq

instance : Codec Query where
  encode
    | .waiting after limit =>
      Json.variant "unbatched_transfers"
        [("start_after", Codec.encode after), ("limit", Codec.encode limit)]
    | .waitingOf contract after limit =>
      Json.variant "unbatched_transfers_by_contract"
        [("token_contract", Codec.encode contract), ("start_after", Codec.encode after),
          ("limit", Codec.encode limit)]
    | .transfer id => Json.variant "transfer" [("id", Codec.encode id)]
    | .fees count => Json.variant "batch_fees" [("max_elements", Codec.encode count)]
    | .pendingBatch contract =>
      Json.variant "pending_batch" [("token_contract", Codec.encode contract)]
    | .batch nonce => Json.variant "batch" [("batch_nonce", Codec.encode nonce)]
    | .batches after limit =>
      Json.variant "all_batches"
        [("start_after", Codec.encode after), ("limit", Codec.encode limit)]
    | .contractOf denom => Json.variant "denom_to_erc20" [("denom", Codec.encode denom)]
    | .denomOf contract =>
      Json.variant "erc20_to_denom" [("token_contract", Codec.encode contract)]
    | .locked denom => Json.variant "locked_balance" [("denom", Codec.encode denom)]
    | .config => Json.variant "config" []
    | .observedHeight => Json.variant "last_observed_eth_height" []
    | .proposal => Json.variant "pending_admin" []
  decode? j := do
    let (name, contents) ← j.variant?
    match name with
    | "unbatched_transfers" =>
      let fields ← contents.closedFields? ["start_after", "limit"]
      let after ← Json.optional? fields "start_after"
      let limit ← Json.optional? fields "limit"
      return .waiting after limit
    | "unbatched_transfers_by_contract" =>
      let fields ← contents.closedFields? ["token_contract", "start_after", "limit"]
      let contract ← Json.required? fields "token_contract"
      let after ← Json.optional? fields "start_after"
      let limit ← Json.optional? fields "limit"
      return .waitingOf contract after limit
    | "transfer" => (Json.variantField? "id" contents).map .transfer
    | "batch_fees" =>
      let fields ← contents.closedFields? ["max_elements"]
      (Json.optional? fields "max_elements").map .fees
    | "pending_batch" => (Json.variantField? "token_contract" contents).map .pendingBatch
    | "batch" => (Json.variantField? "batch_nonce" contents).map .batch
    | "all_batches" =>
      let fields ← contents.closedFields? ["start_after", "limit"]
      let after ← Json.optional? fields "start_after"
      let limit ← Json.optional? fields "limit"
      return .batches after limit
    | "denom_to_erc20" => (Json.variantField? "denom" contents).map .contractOf
    | "erc20_to_denom" => (Json.variantField? "token_contract" contents).map .denomOf
    | "locked_balance" => (Json.variantField? "denom" contents).map .locked
    | "config" => contents.emptyVariant?.map fun _ => .config
    | "last_observed_eth_height" => contents.emptyVariant?.map fun _ => .observedHeight
    | "pending_admin" => contents.emptyVariant?.map fun _ => .proposal
    | _ => none

end BridgePool
