import BridgePool.Batch.Lifecycle
import BridgePool.Message
import BridgePool.Response

/-!
# Commands and host events

`Bridge.execute` carries out a command, `Bridge.report` takes in what the host reports. A paused
bridge takes no sends and makes no batches; everything that gives funds back or settles them goes
on. The administrator alone changes the configuration, cancels batches and names a successor, who
takes over after `Config.adminDelay`.
-/

namespace BridgePool

/-- The host's view of a call: its height and its time. -/
@[ext] structure Env where
  height : UInt64
  time : Instant
  deriving DecidableEq

/-- Who calls, and the coins that come with the call. -/
@[ext] structure Caller where
  sender : String
  funds : List Coin
  deriving DecidableEq

namespace Bridge

/-- An answer of attributes only. -/
def attributes (attributes : List (String × String)) : Response :=
  ⟨attributes, [], []⟩

/-- The configuration of a bridge that is not paused. -/
def activeConfig : Operation Store Config := do
  let config ← .read (·.config)
  .require (config.paused = false) .paused
  return config

/-- The configuration, for the administrator only. -/
def adminConfig (caller : Caller) : Operation Store Config := do
  let config ← .read (·.config)
  .require (caller.sender = config.admin) .unauthorized
  return config

/-- An address given as text. -/
def address (text : String) : Operation Store Address :=
  .lift (fun fault => .token (.address fault)) (Address.parse text)

/-! ## Sends -/

/-- The answer to a send that was taken in under an id. -/
def sendAccepted (caller : Caller) (destination : String) (amount fee : Coin) (id : UInt64)
    (messages : List BankMessage) : Response where
  attributes :=
    [("method", "send_to_eth"), ("transaction_id", spellWord id), ("sender", caller.sender),
      ("dest_address", destination), ("amount", amount.display), ("fee", fee.display)]
  events := []
  messages := messages

/-- The answer to a send that was given back. -/
def sendCancelled (id : UInt64) (sender : String) (refund : Coin)
    (messages : List BankMessage) : Response where
  attributes :=
    [("method", "cancel_send_to_eth"), ("transaction_id", spellWord id), ("sender", sender),
      ("refund", refund.display)]
  events := []
  messages := messages

/-- Takes a send into the pool. The attached coins have to be exactly what the escrow takes. -/
def send (caller : Caller) (destination : String) (amount fee : Coin) :
    Operation Store Response := do
  let _ ← activeConfig
  let receiver ← address destination
  let token ← .lift .token (Token.ofCoin amount)
  let feeToken ← .lift .token (Token.ofCoin fee)
  let (id, escrow) ← Vault.withEscrow (.funded caller.sender caller.funds) do
    let id ← Pool.add caller.sender receiver token feeToken
    Vault.ensureConsumed
    return id
  return sendAccepted caller destination amount fee id escrow.messages

/-- Gives a waiting send back to its sender. No coins may come with the call. -/
def cancelSend (caller : Caller) (id : UInt64) : Operation Store Response := do
  let (t, escrow) ← Vault.withEscrow (.funded caller.sender caller.funds) do
    Vault.ensureConsumed
    Pool.cancel id caller.sender
  let refund ← .lift .token (Pool.heldCoin t)
  return sendCancelled id t.sender refund escrow.messages

/-! ## Batches -/

/-- The answer to the request of a batch. -/
def batchRequested (batch : Batch) : Response where
  attributes :=
    [("method", "request_batch"), ("batch_nonce", spellWord batch.nonce),
      ("token_contract", batch.contract.spelling), ("tx_count", Decimal.text batch.ids.length)]
  events := [.ofBatch "outgoing_batch_created" batch]
  messages := []

/-- The answer to a batch that was abandoned. -/
def batchCancelled (nonce : UInt64) (batch : Batch) : Response where
  attributes := [("method", "cancel_batch"), ("batch_nonce", spellWord nonce)]
  events := [.ofBatch "outgoing_batch_cancelled" batch]
  messages := []

/-- The answer to the execution of a batch on the far chain. -/
def batchSettled (nonce : UInt64) (batch : Batch) (messages : List BankMessage) : Response where
  attributes := [("method", "batch_executed"), ("batch_nonce", spellWord nonce)]
  events := [.ofBatch "outgoing_batch_executed" batch]
  messages := messages

/-- The sum of two heights, or the last height there is. -/
def saturatingAdd (a b : UInt64) : UInt64 :=
  if a.toNat + b.toNat < UInt64.size then a + b else UInt64.ofNat (UInt64.size - 1)

/-- Cuts a batch of one token. It times out the configured number of blocks after the last
observed height of the far chain; before the first there is nothing to count from. -/
def requestBatch (env : Env) (contract : String) : Operation Store Response := do
  let config ← activeConfig
  let contract ← address contract
  let height ← .read (·.observedHeight)
  .require (height ≠ 0) .noObservedHeight
  let batch ← Batch.build env.height contract config.batchSize.toNat
    (saturatingAdd height config.timeoutBlocks)
  return batchRequested batch

/-- Abandons an open batch. -/
def cancelBatch (caller : Caller) (nonce : UInt64) : Operation Store Response := do
  let _ ← adminConfig caller
  let batch ← Batch.cancel nonce
  return batchCancelled nonce batch

/-! ## Configuration -/

/-- Replaces one parameter of a configuration if a new value is given, and answers what to report
of it. -/
def changed {α : Type} (value : Option α) (check : α → Except Fault (Config → Config))
    (report : α → String × String) (config : Config) :
    Operation Store (Config × List (String × String)) :=
  match value with
  | none => pure (config, [])
  | some a => do
    let change ← .lift id (check a)
    return (change config, [report a])

/-- Changes parameters. The first one out of its bounds stops the call. -/
def configure (caller : Caller) (batchSize : Option UInt32) (timeoutBlocks : Option UInt64)
    (bridge : Option String) : Operation Store Response := do
  let config ← adminConfig caller
  let (config, size) ← changed batchSize
    (fun n => ((Config.checkBatchSize n).mapError .config).map
      fun _ config => { config with batchSize := n })
    (fun n => ("batch_size", Decimal.text n.toNat)) config
  let (config, timeout) ← changed timeoutBlocks
    (fun n => ((Config.checkTimeoutBlocks n).mapError .config).map
      fun _ config => { config with timeoutBlocks := n })
    (fun n => ("batch_timeout_blocks", spellWord n)) config
  let (config, address) ← changed bridge
    (fun text => ((Address.parse text).mapError fun fault => .token (.address fault)).map
      fun address config => { config with bridge := .ofOption (some address) })
    (fun text => ("bridge_ethereum_address", text)) config
  .update (·.saveConfig config)
  return attributes ([("method", "update_config")] ++ size ++ timeout ++ address)

/-- Pauses the bridge, or lets it go on. -/
def setPaused (caller : Caller) (paused : Bool) : Operation Store Response := do
  let config ← adminConfig caller
  .update (·.saveConfig { config with paused })
  return attributes [("method", if paused then "pause" else "unpause")]

/-! ## Administration -/

/-- Proposes a new administrator. -/
def propose (env : Env) (caller : Caller) (candidate : String) : Operation Store Response := do
  let _ ← adminConfig caller
  let candidate ← .lift .account (Account.check candidate)
  match env.time.later? Config.adminDelay with
  | none => .stop .clockOverflow
  | some notBefore =>
    .update (·.save .proposal (⟨candidate, notBefore⟩ : Proposal))
    return attributes
      [("method", "propose_admin"), ("new_admin", candidate),
        ("execute_after", Decimal.text notBefore.seconds)]

/-- Makes the proposed administrator the administrator. -/
def accept (env : Env) (caller : Caller) : Operation Store Response := do
  match ← .read (·.proposal?) with
  | none => .stop .noProposal
  | some proposal =>
    .require (caller.sender = proposal.candidate) .notCandidate
    .require (proposal.notBefore.nanos ≤ env.time.nanos)
      (.timelocked (proposal.notBefore.seconds - env.time.seconds))
    let config ← .read (·.config)
    .update (·.saveConfig { config with admin := proposal.candidate })
    .update (·.clear .proposal)
    return attributes [("method", "accept_admin"), ("new_admin", proposal.candidate)]

/-- Withdraws the proposal, if there is one. -/
def withdraw (caller : Caller) : Operation Store Response := do
  let _ ← adminConfig caller
  .update (·.clear .proposal)
  return attributes [("method", "cancel_admin_proposal")]

/-! ## Entry points -/

/-- Carries out a command. -/
def execute (env : Env) (caller : Caller) : Command → Operation Store Response
  | .send destination amount fee => send caller destination amount fee
  | .cancelSend id => cancelSend caller id
  | .requestBatch contract => requestBatch env contract
  | .cancelBatch nonce => cancelBatch caller nonce
  | .configure batchSize timeoutBlocks bridge =>
    configure caller batchSize timeoutBlocks bridge
  | .pause => setPaused caller true
  | .unpause => setPaused caller false
  | .propose candidate => propose env caller candidate
  | .accept => accept env caller
  | .withdraw => withdraw caller

/-- The answer to the end of a block: the recorded height, and the batches that timed out. -/
def blockEnded (height : UInt64) (timedOut : List Batch) : Response where
  attributes :=
    [("method", "end_block"), ("eth_block_height", spellWord height),
      ("timed_out", Decimal.text timedOut.length)]
  events := timedOut.map (.ofBatch "outgoing_batch_timed_out")
  messages := []

/-- The end of a block: records the far chain's height, which never goes down, and times out the
batches that lie below it. -/
def endBlock (height : UInt64) : Operation Store Response := do
  let last ← .read (·.observedHeight)
  let height := max last height
  .update (·.saveHeight height)
  let timedOut ← Batch.prune height
  return blockEnded height timedOut

/-- A batch was executed on the far chain. -/
def batchExecuted (nonce : UInt64) : Operation Store Response := do
  let (batch, escrow) ← Vault.withEscrow (.unfunded "") (Batch.execute nonce)
  return batchSettled nonce batch escrow.messages

/-- Takes in what the host reports. -/
def report : HostEvent → Operation Store Response
  | .endBlock height => endBlock height
  | .batchExecuted nonce => batchExecuted nonce

end Bridge

end BridgePool
