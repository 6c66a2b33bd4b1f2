import BridgePool.Chain
import BridgePool.Proofs.Book.Deed

/-!
# What a successful call comes to

`Outcome b c r ds` says what the call `c` on a store with the book `b` may answer (`r`) and which
deeds it does (`ds`). It holds the guards that tie the deeds to the call: who asks, with which
coins, and what was asked for.
-/

namespace BridgePool

/-- No coins that are worth something come with the call. -/
def Caller.Bare (caller : Caller) : Prop :=
  ∀ coin ∈ caller.funds, coin.amount = .zero

theorem Caller.bare_iff {caller : Caller} :
    caller.Bare ↔ caller.funds.filter (·.amount ≠ Amount.zero) = [] := by
  simp [Caller.Bare, List.filter_eq_nil_iff]

/-- The transfer that a send makes of a book. -/
structure Book.Sends (b : Book) (caller : Caller) (destination : String) (amount fee : Coin)
    (t : Transfer) : Prop where
  active : ∃ c, b.config = some c ∧ c.paused = false
  destination : Address.parse destination = .ok t.destination
  token : Token.ofCoin amount = .ok t.token
  fee : ∃ f, Token.ofCoin fee = .ok f ∧ t.token.contract.Same f.contract ∧
    t.fee = ⟨f.amount, t.token.contract⟩
  id : t.id = b.next
  room : t.id.toNat + 1 < UInt64.size
  sender : t.sender = caller.sender
  waits : t.state = .unbatched
  positive : t.token.amount.val ≠ 0
  fits : t.worth < Nat.pow 2 128
  attached : ∃ left, Escrow.takeOut t.coin caller.funds = .ok left ∧
    left.filter (·.amount ≠ Amount.zero) = []

/-- A send for which the ledger has room takes the transfer in. -/
theorem Book.Sends.move {b : Book} {caller : Caller} {destination : String} {amount fee : Coin}
    {t : Transfer} {sum : CoinAmount} (sends : b.Sends caller destination amount fee t)
    (credited : sum.val = b.locked.held t.token.denom + t.worth) :
    Move b (.accept t) (b.accept t sum) := by
  obtain ⟨f, _, _, own⟩ := sends.fee
  exact .accept sends.id sends.room sends.waits (own ▸ rfl) sends.positive credited

/-- The configuration that a change of parameters makes. -/
structure Config.Changed (c : Config) (batchSize : Option UInt32) (timeoutBlocks : Option UInt64)
    (bridge : Option String) (c' : Config) : Prop where
  admin : c'.admin = c.admin
  paused : c'.paused = c.paused
  batchSize : c'.batchSize = batchSize.getD c.batchSize
  timeoutBlocks : c'.timeoutBlocks = timeoutBlocks.getD c.timeoutBlocks
  bridge : match bridge with
    | none => c'.bridge = c.bridge
    | some text => ∃ a, Address.parse text = .ok a ∧ c'.bridge = .ofOption (some a)

/-- The batches that a height times out, in ascending order of their contracts. -/
structure Book.Expires (b : Book) (height : UInt64) (bs : List Batch) : Prop where
  mem_iff : ∀ {batch}, batch ∈ bs ↔
    b.batch batch.nonce = some batch ∧ batch.state = .open ∧ batch.timeout < height
  ascending : bs.Pairwise fun c d => c.contract.raw.val < d.contract.raw.val

section Nonces

variable {b : Book} {bs : List Batch}

/-- Recorded batches of different contracts have different nonces. -/
theorem Book.nodup_nonces (recorded : ∀ batch ∈ bs, b.batch batch.nonce = some batch)
    (ascending : bs.Pairwise fun c d => c.contract.raw.val < d.contract.raw.val) :
    (bs.map (·.nonce)).Nodup := by
  rw [List.Nodup, List.pairwise_map]
  apply ascending.imp_of_mem
  intro c d memC memD below same
  have found := recorded c memC
  rw [same, recorded d memD, Option.some.injEq] at found
  rw [found] at below
  exact List.lt_irrefl _ below

theorem Book.Expires.nodup_nonces {height : UInt64} (h : b.Expires height bs) :
    (bs.map (·.nonce)).Nodup :=
  Book.nodup_nonces (fun _ mem => (h.mem_iff.mp mem).1) h.ascending

end Nonces

/-- What a successful call answers, and the deeds it does. -/
inductive Outcome (b : Book) : Call → Response → List Deed → Prop
  | send {env : Env} {caller : Caller} {destination : String} {amount fee : Coin} {t : Transfer}
      (sends : b.Sends caller destination amount fee t) :
      Outcome b (.command env caller (.send destination amount fee))
        (Bridge.sendAccepted caller destination amount fee t.id []) [.accept t]
  | cancelSend {env : Env} {caller : Caller} {t : Transfer}
      (own : t.sender = caller.sender)
      (bare : caller.funds.filter (·.amount ≠ Amount.zero) = []) :
      Outcome b (.command env caller (.cancelSend t.id))
        (Bridge.sendCancelled t.id t.sender t.coin [.send t.sender [t.coin]]) [.refund t]
  | requestBatch {env : Env} {caller : Caller} {text : String} {contract : Address} {c : Config}
      {batch : Batch} (config : b.config = some c) (active : c.paused = false)
      (parsed : Address.parse text = .ok contract)
      (gathers : b.Gathers contract.raw c.batchSize.toNat batch)
      (block : batch.block = env.height) :
      Outcome b (.command env caller (.requestBatch text))
        (Bridge.batchRequested batch) [.gather batch]
  | cancelBatch {env : Env} {caller : Caller} {batch : Batch} {c : Config}
      (config : b.config = some c) (admin : caller.sender = c.admin) :
      Outcome b (.command env caller (.cancelBatch batch.nonce))
        (Bridge.batchCancelled batch.nonce { batch with state := .cancelled })
        [.disband batch .cancelled]
  | configure {env : Env} {caller : Caller} {batchSize : Option UInt32}
      {timeoutBlocks : Option UInt64} {bridge : Option String} {c c' : Config}
      {attributes : List (String × String)}
      (config : b.config = some c) (admin : caller.sender = c.admin)
      (changed : c.Changed batchSize timeoutBlocks bridge c') :
      Outcome b (.command env caller (.configure batchSize timeoutBlocks bridge))
        (Bridge.attributes attributes) [.configure c']
  | pause {env : Env} {caller : Caller} {c : Config}
      (config : b.config = some c) (admin : caller.sender = c.admin) :
      Outcome b (.command env caller .pause) (Bridge.attributes [("method", "pause")])
        [.configure { c with paused := true }]
  | unpause {env : Env} {caller : Caller} {c : Config}
      (config : b.config = some c) (admin : caller.sender = c.admin) :
      Outcome b (.command env caller .unpause) (Bridge.attributes [("method", "unpause")])
        [.configure { c with paused := false }]
  | propose {env : Env} {caller : Caller} {candidate : String} {c : Config} {notBefore : Instant}
      (config : b.config = some c) (admin : caller.sender = c.admin)
      (checked : Account.check candidate = .ok candidate)
      (later : env.time.later? Config.adminDelay = some notBefore) :
      Outcome b (.command env caller (.propose candidate))
        (Bridge.attributes
          [("method", "propose_admin"), ("new_admin", candidate),
            ("execute_after", Decimal.text notBefore.seconds)])
        [.propose (some ⟨candidate, notBefore⟩)]
  | accept {env : Env} {caller : Caller} {c : Config} {p : Proposal}
      (config : b.config = some c) (proposed : b.proposal = some p)
      (candidate : caller.sender = p.candidate) (due : p.notBefore.nanos ≤ env.time.nanos) :
      Outcome b (.command env caller .accept)
        (Bridge.attributes [("method", "accept_admin"), ("new_admin", p.candidate)])
        [.configure { c with admin := p.candidate }, .propose none]
  | withdraw {env : Env} {caller : Caller} {c : Config}
      (config : b.config = some c) (admin : caller.sender = c.admin) :
      Outcome b (.command env caller .withdraw)
        (Bridge.attributes [("method", "cancel_admin_proposal")]) [.propose none]
  | endBlock {height now : UInt64} {bs : List Batch} (rises : now = max (b.height.getD 0) height)
      (expires : b.Expires now bs) :
      Outcome b (.hostEvent (.endBlock height)) (Bridge.blockEnded now bs)
        (.observe now :: bs.map (.disband · .timedOut))
  | batchExecuted {batch : Batch} {ts : List Transfer} :
      Outcome b (.hostEvent (.batchExecuted batch.nonce))
        (Bridge.batchSettled batch.nonce { batch with state := .executed }
          (ts.map fun t => .burn [t.coin]))
        [.settle batch ts]
  | upgrade :
      Outcome b .upgrade
        { attributes := [("action", "migrate"), ("version", Release.current.version)]
          events := [], messages := [] }
        [.mark Release.current]

end BridgePool
