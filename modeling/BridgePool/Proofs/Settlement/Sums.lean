import BridgePool.Proofs.Coin
import BridgePool.Proofs.Settlement.Turn

/-!
# What is accepted and what is paid

`Step.accepted`, `Step.refunded` and `Step.burned` are what a step takes in, pays back and burns in a
denom. By as much the sends of a book become worth more or less (`Turn.worth_eq`).
-/

namespace BridgePool

/-- What a request sends in a denom. -/
def BankMessage.refunded (denom : String) : BankMessage → Nat
  | .send _ coins => Coin.total denom coins
  | .burn _ => 0

/-- What a request burns in a denom. -/
def BankMessage.burned (denom : String) : BankMessage → Nat
  | .send _ _ => 0
  | .burn coins => Coin.total denom coins

namespace Chain

namespace Step

/-- What a step takes in: the amount and the fee of an accepted send, in the denom of the
amount. -/
def accepted (denom : String) (e : Step) : Nat :=
  match e with
  | ⟨.command _ _ (.send _ amount fee), .ok _⟩ =>
    if amount.denom = denom then amount.amount.val + fee.amount.val else 0
  | _ => 0

/-- What a step pays back. -/
def refunded (denom : String) (e : Step) : Nat :=
  (e.messages.map (·.refunded denom)).sum

/-- What a step burns. -/
def burned (denom : String) (e : Step) : Nat :=
  (e.messages.map (·.burned denom)).sum

end Step

variable {b b' : Book} {t : Transfer}

/-- The coin of a transfer comes to what the transfer is worth. -/
theorem total_coin (fits : t.worth < Nat.pow 2 128) (denom : String) :
    Coin.total denom [t.coin] = t.share denom := by
  rw [Coin.total, Transfer.share, List.filter_cons, List.filter_nil]
  by_cases same : t.token.denom = denom
  · have own : t.coin.denom = denom := same
    simp [own, same, Transfer.coin_amount fits]
  · have other : t.coin.denom ≠ denom := same
    simp [other, same]

/-- The burned coins of records come to what the records are worth. -/
theorem sum_burned (sound : b.Sound) {ids : List UInt64} {ts : List Transfer}
    (kept : ids.map b.transfer = ts.map some) (denom : String) :
    ((ts.map fun t => BankMessage.burn [t.coin]).map (·.burned denom)).sum =
      (ts.map (Transfer.share denom)).sum := by
  rw [List.map_map]
  refine congrArg List.sum (List.map_congr_left fun t mem => ?_)
  obtain ⟨id, _, found⟩ := Book.exists_id_of_mem kept mem
  rw [Function.comp_apply, BankMessage.burned, total_coin (sound.fits found)]

/-- Burning pays nothing back. -/
theorem sum_refunded_burns (ts : List Transfer) (denom : String) :
    ((ts.map fun t => BankMessage.burn [t.coin]).map (·.refunded denom)).sum = 0 := by
  simp [Function.comp_def, BankMessage.refunded]

/-- What a send takes in is what its record is worth. -/
theorem accepted_of_sends {env : Env} {caller : Caller} {destination : String} {amount fee : Coin}
    {r : Response} (sends : b.Sends caller destination amount fee t) (denom : String) :
    Step.accepted denom ⟨.command env caller (.send destination amount fee), .ok r⟩ =
      t.share denom := by
  have records := Receipt.records_of_sends sends
  rw [Step.accepted, Transfer.share, Transfer.worth, records.denom, records.amount, records.fee]

/-- Only accepted sends take anything in. -/
theorem accepted_of_refused {e : Step} (refused : ∀ env caller destination amount fee r,
      e ≠ ⟨.command env caller (.send destination amount fee), .ok r⟩) (denom : String) :
    e.accepted denom = 0 := by
  unfold Step.accepted
  split
  next => exact absurd rfl (refused _ _ _ _ _ _)
  next => rfl

/-- The sends of a book are worth as much more as a step takes in, and as much less as it pays. -/
theorem Turn.worth_eq {e : Step} (turn : Turn b b' e) (sound : b.Sound) (denom : String) :
    b'.worth denom + e.refunded denom + e.burned denom = b.worth denom + e.accepted denom := by
  rw [Step.refunded, Step.burned]
  cases turn with
  | accept sends _ silent sent _ =>
      have grown := Book.worth_of_accepted (sends.unused sound.toRecorded) sent denom
      rw [accepted_of_sends sends, grown, Step.messages_ok, silent]
      simp only [List.map_nil, List.sum_nil, Nat.add_zero]
  | @refund env caller t r kept _ messages sent _ =>
      have shrunk := Book.worth_of_refunded kept sent denom
      have coin := total_coin (sound.fits kept) denom
      have taken : Step.accepted denom ⟨.command env caller (.cancelSend t.id), .ok r⟩ = 0 := rfl
      rw [taken, Step.messages_ok, messages, ← shrunk, ← coin]
      simp only [List.map_cons, List.map_nil, List.sum_cons, List.sum_nil, BankMessage.refunded,
        BankMessage.burned, Nat.add_zero]
  | @settle batch ts r recorded kept messages sent _ =>
      have shrunk := Book.worth_of_settled (sound.sized recorded).2.2 kept sent denom
      have coins := sum_burned sound kept denom
      have taken : Step.accepted denom ⟨.hostEvent (.batchExecuted batch.nonce), .ok r⟩ = 0 := rfl
      rw [taken, Step.messages_ok, messages, coins, sum_refunded_burns]
      exact shrunk
  | rest silent sent _ refused =>
      rw [← Book.worthOf_sent, sent, Book.worthOf_sent, silent, accepted_of_refused refused]
      simp only [List.map_nil, List.sum_nil, Nat.add_zero]

end Chain

end BridgePool
