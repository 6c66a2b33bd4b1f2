import BridgePool.Proofs.Book.Sent
import BridgePool.Proofs.Run
import BridgePool.Proofs.Spelling
import BridgePool.Proofs.Token

/-!
# Receipts of sends

A `Receipt` is what the sender of an accepted send knows of it: the id that was answered and what
was asked for. This module says what it is for a record to be that of a receipt, and for a step to
issue a receipt, to refund it or to burn its coin. The record that a send makes is that of its
receipt (`Receipt.records_of_sends`); a cancellation refunds the receipt of the record that it takes
out (`Step.refunds`), and an execution burns those of the records that its batch lists
(`Moment.burns`).
-/

namespace BridgePool

/-- The id that a send was answered, and what was asked for. -/
structure Receipt where
  id : UInt64
  sender : String
  destination : String
  amount : Coin
  fee : Coin

namespace Receipt

/-- The record of a send has its id, sender and destination, its amount and its fee; the fee is
spelled as the amount is. -/
structure Records (p : Receipt) (t : Transfer) : Prop where
  id : t.id = p.id
  sender : t.sender = p.sender
  destination : t.destination.spelling = p.destination
  amount : t.token.amount.val = p.amount.amount.val
  denom : t.token.denom = p.amount.denom
  fee : t.fee.amount.val = p.fee.amount.val
  fee_spelled : t.fee.contract = t.token.contract
  fee_contract : ∃ c, Denom.contract p.fee.denom = .ok c ∧ c.Same t.fee.contract

/-- The one coin of a send: its amount and its fee, in the denom of the amount. -/
structure Escrows (p : Receipt) (coin : Coin) : Prop where
  denom : coin.denom = p.amount.denom
  amount : coin.amount.val = p.amount.amount.val + p.fee.amount.val

end Receipt

/-! ## Steps -/

namespace Chain

/-- What the bank is asked for by a step; a call that stops asks for nothing. -/
def Step.messages (e : Step) : List BankMessage :=
  match e.answer with
  | .ok r => r.messages
  | .error _ => []

theorem Step.messages_ok (c : Call) (r : Response) : Step.messages ⟨c, .ok r⟩ = r.messages :=
  rfl

/-- The step is a send that was accepted, and this is its receipt. -/
def Step.Issues (e : Step) (p : Receipt) : Prop :=
  ∃ env funds r,
    e = ⟨.command env ⟨p.sender, funds⟩ (.send p.destination p.amount p.fee), .ok r⟩ ∧
      ("transaction_id", spellWord p.id) ∈ r.attributes

/-- The step is a successful cancellation by the sender, which asks the bank to send the coin back
and for nothing else. -/
def Step.Refunds (e : Step) (p : Receipt) : Prop :=
  ∃ env funds r coin, e = ⟨.command env ⟨p.sender, funds⟩ (.cancelSend p.id), .ok r⟩ ∧
    p.Escrows coin ∧ r.messages = [.send p.sender [coin]]

/-- The step executes a batch that lists the send. Of each id that the batch lists one coin is
burned, in the order of the list, and here it is the coin of the send. -/
def Moment.Burns (m : Moment) (p : Receipt) : Prop :=
  ∃ (n : UInt64) (r : Response) (batch : Batch) (coin : Coin) (k : Nat),
    m.toStep = ⟨.hostEvent (.batchExecuted n), .ok r⟩ ∧
      m.before.batch? n = .ok (some batch) ∧ batch.ids.Nodup ∧
        r.messages.length = batch.ids.length ∧ batch.ids[k]? = some p.id ∧
          p.Escrows coin ∧ r.messages[k]? = some (.burn [coin])

/-- Whether the row of a record was there before and is not there any more. -/
def Moment.removes (id : UInt64) (m : Moment) : Bool :=
  (m.before.get? (Cell.transfer id).key).isSome && (m.after.get? (Cell.transfer id).key).isNone

end Chain

/-! ## Records and their receipts -/

variable {b b' : Book} {p : Receipt} {t : Transfer} {id : UInt64}

namespace Receipt

/-- The state of a record does not matter to its receipt. -/
theorem Records.of_asSent (h : p.Records t.asSent) : p.Records t :=
  ⟨h.id, h.sender, h.destination, h.amount, h.denom, h.fee, h.fee_spelled, h.fee_contract⟩

/-- The coin of a record is that of its receipt. -/
theorem Records.escrows (h : p.Records t) (fits : t.worth < Nat.pow 2 128) :
    p.Escrows t.coin where
  denom := h.denom
  amount := by
    rw [Transfer.coin_amount fits, Transfer.worth, h.amount, h.fee]

/-- The transfer that a send makes is that of its receipt. -/
theorem records_of_sends {caller : Caller} {destination : String} {amount fee : Coin}
    (sends : b.Sends caller destination amount fee t) :
    Records ⟨t.id, caller.sender, destination, amount, fee⟩ t := by
  obtain ⟨f, taken, same, spelled⟩ := sends.fee
  obtain ⟨exactly, denom⟩ := Token.ofCoin_eq_ok.mp sends.token
  obtain ⟨exactlyFee, denomFee⟩ := Token.ofCoin_eq_ok.mp taken
  exact {
    id := rfl
    sender := sends.sender
    destination := Address.parse_eq_ok.mp sends.destination
    amount := exactly
    denom := denom
    fee := spelled ▸ exactlyFee
    fee_spelled := spelled ▸ rfl
    fee_contract := ⟨f.contract, Denom.contract_eq_ok.mpr denomFee, spelled ▸ same.symm⟩ }

end Receipt

namespace Chain

/-- A row is removed when its send is there before and not any more. -/
theorem Moment.removes_iff {m : Moment} (h : m.before.Keeps b) (h' : m.after.Keeps b')
    (id : UInt64) :
    m.removes id = true ↔ (b.sent id).isSome ∧ b'.sent id = none := by
  rw [removes, h.get?_transfer, h'.get?_transfer, Bool.and_eq_true, Option.isNone_iff_eq_none,
    Option.isSome_map, Option.map_eq_none_iff, Book.sent_eq_none, Book.sent, Option.isSome_map]

/-- A cancellation refunds the record that it takes out. -/
theorem Step.refunds {env : Env} {caller : Caller} {r : Response} (records : p.Records t)
    (fits : t.worth < Nat.pow 2 128) (own : t.sender = caller.sender)
    (messages : r.messages = [.send t.sender [t.coin]]) :
    Step.Refunds ⟨.command env caller (.cancelSend t.id), .ok r⟩ p := by
  refine ⟨env, caller.funds, r, t.coin, ?_, records.escrows fits, ?_⟩
  · rw [← records.id, ← records.sender, own]
  · rw [← records.sender, messages]

/-- An execution burns the coins of the records that its batch lists. -/
theorem Moment.burns {m : Moment} {batch : Batch} {ts : List Transfer} {r : Response}
    (sound : b.Sound) (h : m.before.Keeps b)
    (step : m.toStep = ⟨.hostEvent (.batchExecuted batch.nonce), .ok r⟩)
    (recorded : b.batch batch.nonce = some batch) (kept : batch.ids.map b.transfer = ts.map some)
    (messages : r.messages = ts.map fun t => .burn [t.coin]) (listed : id ∈ batch.ids)
    (found : b.transfer id = some t) (records : p.Records t) : m.Burns p := by
  obtain ⟨k, place⟩ := List.getElem?_of_mem listed
  have across := congrArg (·[k]?) kept
  simp only [List.getElem?_map, place, Option.map_some, found] at across
  obtain ⟨u, there, same⟩ := Option.map_eq_some_iff.mp across.symm
  obtain rfl := Option.some.inj same
  have lengths := congrArg List.length kept
  rw [List.length_map, List.length_map] at lengths
  refine ⟨batch.nonce, r, batch, u.coin, k, step, ?_, (sound.sized recorded).2.2, ?_, ?_,
    records.escrows (sound.fits found), ?_⟩
  · rw [h.batch?, recorded]
  · rw [messages, List.length_map, lengths]
  · rw [place, ← records.id, sound.transfer_id found]
  · rw [messages, List.getElem?_map, there, Option.map_some]

end Chain

end BridgePool
