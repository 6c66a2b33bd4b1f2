import BridgePool.Batch.Lifecycle
import BridgePool.Message
import BridgePool.Pool.Fees

/-!
# Queries

`Bridge.answer` looks a query up without changing anything; `Answer.json` is the JSON form of
what it finds.
-/

namespace BridgePool

/-- A batch with those of its transfers that are still kept, and the sum of their fees. -/
@[ext] structure BatchView where
  batch : Batch
  transfers : List Transfer
  totalFee : Token
  deriving DecidableEq

namespace BatchView

/-- The transfers that are still kept among the given ids, and the sum of their fees. -/
def collect (s : Store) : List UInt64 → (transfers : List Transfer) → (fees : TokenAmount) →
    Except StoreFault (List Transfer × TokenAmount)
  | [], transfers, fees => .ok (transfers, fees)
  | id :: rest, transfers, fees => do
    match ← s.transfer? id with
    | none => collect s rest transfers fees
    | some t =>
      match fees.add? t.fee.amount with
      | some sum => collect s rest (transfers ++ [t]) sum
      | none => .error (.overflow fees.val t.fee.amount.val)

/-- The view of a batch. -/
def ofBatch (s : Store) (b : Batch) : Except StoreFault BatchView := do
  let (transfers, fees) ← collect s b.ids [] Amount.zero
  return ⟨b, transfers, ⟨fees, b.contract⟩⟩

/-- The view of a batch that may be missing. -/
def ofBatch? (s : Store) (b : Option Batch) : Except StoreFault (Option BatchView) :=
  b.mapM (ofBatch s)

/-- The JSON record of a view. -/
def json (v : BatchView) : Json :=
  .record
    [("batch_nonce", Codec.encode v.batch.nonce), ("batch_timeout", Codec.encode v.batch.timeout),
      ("token_contract", Codec.encode v.batch.contract), ("block", Codec.encode v.batch.block),
      ("state", Codec.encode v.batch.state),
      ("transaction_ids", Codec.encode v.batch.ids),
      ("transactions", Codec.encodeList v.transfers), ("total_fee", Codec.encode v.totalFee)]

end BatchView

/-- What a query finds. -/
inductive Answer where
  | transfers (page : Listing.Page)
  | transfer (t : Option Transfer)
  | fees (totals : List FeeTotal)
  | batch (view : Option BatchView)
  | batches (views : List BatchView)
  | contract (contract : Address)
  | denom (denom : String)
  | locked (denom : String) (amount : CoinAmount)
  | config (config : Config)
  | observedHeight (height : UInt64)
  | proposal (proposal : Option Proposal)
  deriving DecidableEq

/-- The JSON form of an answer. -/
def Answer.json : Answer → Json
  | .transfers page =>
    .record
      [("transfers", Codec.encodeList page.transfers),
        ("next_start_after", Codec.encode page.next)]
  | .transfer t => .record [("transfer", Codec.encode t)]
  | .fees totals => .record [("batch_fees", Codec.encodeList totals)]
  | .batch none => Json.null
  | .batch (some view) => view.json
  | .batches views => .record [("batches", .list (views.map BatchView.json))]
  | .contract a => .record [("erc20", Codec.encode a)]
  | .denom d => .record [("denom", Codec.encode d)]
  | .locked d amount => .record [("denom", Codec.encode d), ("amount", Codec.encode amount)]
  | .config c => Codec.encode c
  | .observedHeight height => .record [("eth_block_height", Codec.encode height)]
  | .proposal p => Codec.encode p

namespace Bridge

/-- How many rows a page may have: as asked, up to a bound, and a usual number when not asked. -/
def pageSize (usual bound : Nat) (asked : Option UInt32) : Nat :=
  min ((asked.map UInt32.toNat).getD usual) bound

/-- An address given as text. -/
def askedAddress (text : String) : Except QueryFault Address :=
  (Address.parse text).mapError fun fault => .token (.address fault)

/-- What a query finds in a store. -/
def answer (s : Store) : Query → Except QueryFault Answer
  | .waiting after limit =>
    Except.mapError .store do
      let listing ← Listing.poolAfter s after
      return .transfers (← Listing.page s listing (pageSize 100 1000 limit))
  | .waitingOf contract after limit => do
    let contract ← askedAddress contract
    Except.mapError .store do
      let listing ← Listing.ofContractAfter s contract after
      return .transfers (← Listing.page s listing (pageSize 100 1000 limit))
  | .transfer id => Except.mapError .store ((s.transfer? id).map .transfer)
  | .fees count =>
    Except.mapError .store do
      let count ← match count with
        | some n => pure (min n Config.maxBatchSize)
        | none => s.config.map (·.batchSize)
      return .fees (← FeeTotal.top s count.toNat)
  | .pendingBatch contract => do
    let contract ← askedAddress contract
    Except.mapError .store do
      return .batch (← BatchView.ofBatch? s (← Batch.pending? s contract))
  | .batch nonce =>
    Except.mapError .store do
      return .batch (← BatchView.ofBatch? s (← s.batch? nonce))
  | .batches after limit =>
    Except.mapError .store do
      let batches ← Batch.listAfter s after (pageSize 10 30 limit)
      return .batches (← batches.mapM (BatchView.ofBatch s))
  | .contractOf denom =>
    ((Denom.contract denom).mapError fun fault => .token (.denom fault)).map .contract
  | .denomOf contract => do
    let contract ← askedAddress contract
    return .denom (Denom.ofContract contract)
  | .locked denom => Except.mapError .store ((s.locked denom).map (.locked denom))
  | .config => Except.mapError .store (s.config.map .config)
  | .observedHeight => Except.mapError .store (s.observedHeight.map .observedHeight)
  | .proposal => Except.mapError .store (s.proposal?.map .proposal)

end Bridge

end BridgePool
