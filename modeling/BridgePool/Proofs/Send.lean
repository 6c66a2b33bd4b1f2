import BridgePool.Proofs.Refusal
import BridgePool.Proofs.Spelling

/-!
# Sends

A send is taken in exactly when the bridge is not paused, the destination and both denoms can be
read, the denoms are of one contract, the amount is not zero, what it comes to is attached and has
room in a coin and in the ledger, and an id is left (`Store.Accepts`). Amount and fee then wait
together under that id, and apart from the counter, the ledger of the denom and the two rows of the
transfer nothing changes (`Store.TakesIn`). `Reachable.sendExact` says so of every reachable store.

What is attached is looked at in order: the first coin of the denom has to be of just the sum, and
every other coin, of whichever denom, has to be empty (`Coin.Covers`).
-/

namespace BridgePool

/-- The first coin of the denom is of just this amount, and all other coins are empty. -/
def Coin.Covers (coins : List Coin) (denom : String) (total : Nat) : Prop :=
  ∃ front coin rest, coins = front ++ coin :: rest ∧ (∀ c ∈ front, c.denom ≠ denom) ∧
    coin.denom = denom ∧ coin.amount.val = total ∧ ∀ c ∈ front ++ rest, c.amount = .zero

/-- What amount and fee of a send come to. -/
def Coin.together (amount fee : Coin) : Nat :=
  amount.amount.val + fee.amount.val

namespace Store

/-- What has to hold for a send to be taken in. -/
structure Accepts (s : Store) (config : Config) (caller : Caller) (destination : String)
    (amount fee : Coin) : Prop where
  active : config.paused = false
  destination : ∃ receiver, Address.parse destination = .ok receiver
  /-- Both denoms are vouchers of one contract, whose bytes count and not their spelling. -/
  contracts : ∃ contract other, Denom.contract amount.denom = .ok contract ∧
    Denom.contract fee.denom = .ok other ∧ contract.raw = other.raw
  positive : 0 < amount.amount.val
  fits : amount.together fee < Nat.pow 2 128
  covered : Coin.Covers caller.funds amount.denom (amount.together fee)
  room : ∃ held, s.locked amount.denom = .ok held ∧ held.val + amount.together fee < Nat.pow 2 128
  next : ∃ id, s.nextId = .ok id ∧ id.toNat + 1 < UInt64.size

/-- The send makes the transfer, and `s'` is the store that it is kept in. -/
structure TakesIn (s s' : Store) (caller : Caller) (destination : String) (amount fee : Coin)
    (t : Transfer) : Prop where
  id : s.nextId = .ok t.id
  sender : t.sender = caller.sender
  destination : Address.parse destination = .ok t.destination
  contract : Denom.contract amount.denom = .ok t.token.contract
  /-- The fee is spelled as the amount. -/
  spelled : t.fee.contract = t.token.contract
  values : t.token.amount.val = amount.amount.val ∧ t.fee.amount.val = fee.amount.val
  waits : t.state = .unbatched
  absent : s.transfer? t.id = .ok none ∧ s.get? (feeCell t).key = none
  kept : s'.transfer? t.id = .ok (some t) ∧ s'.get? (feeCell t).key = some [0x01]
  counted : ∃ id, s'.nextId = .ok id ∧ id.toNat = t.id.toNat + 1
  locked : ∃ held held', s.locked amount.denom = .ok held ∧ s'.locked amount.denom = .ok held' ∧
    held'.val = held.val + amount.together fee
  /-- No other row changes. -/
  rest : ∀ key ∉ [Cell.nextId, .transfer t.id, feeCell t, .locked amount.denom].map Cell.key,
    s'.get? key = s.get? key

/-- When a send succeeds, and what it does. -/
structure SendExact (s : Store) : Prop where
  succeeds_iff : ∃ config, s.config = .ok config ∧ ∀ env caller destination amount fee,
    (Call.command env caller (.send destination amount fee)).Succeeds s ↔
      s.Accepts config caller destination amount fee
  takes_in : ∀ env caller destination amount fee r s',
    (Call.command env caller (.send destination amount fee)).run s = (.ok r, s') →
      ∃ t, s.TakesIn s' caller destination amount fee t ∧
        ("transaction_id", spellWord t.id) ∈ r.attributes ∧ r.messages = []

end Store

open Operation

variable {s s' : Store} {b b' : Book} {config : Config} {caller : Caller} {destination : String}
  {amount fee : Coin} {t : Transfer} {sum : CoinAmount}

/-! ## The attached coins -/

namespace Coin

variable {denom : String} {total : Nat} {c : Coin} {coins : List Coin}

/-- The coin that covers is the first one, or the first one is an empty coin of another denom. -/
theorem covers_cons : Covers (c :: coins) denom total ↔
    if c.denom = denom then c.amount.val = total ∧ ∀ other ∈ coins, other.amount = .zero
    else c.amount = .zero ∧ Covers coins denom total := by
  split
  next own =>
    constructor
    · rintro ⟨front, coin, rest, split, apart, _, exact_sum, empty⟩
      cases front with
      | nil =>
          obtain ⟨rfl, rfl⟩ := List.cons.inj split
          exact ⟨exact_sum, empty⟩
      | cons first front =>
          obtain ⟨rfl, _⟩ := List.cons.inj split
          exact absurd own (apart c List.mem_cons_self)
    · rintro ⟨exact_sum, empty⟩
      exact ⟨[], c, coins, rfl, nofun, own, exact_sum, empty⟩
  next other =>
    constructor
    · rintro ⟨front, coin, rest, split, apart, own, exact_sum, empty⟩
      cases front with
      | nil =>
          obtain ⟨rfl, rfl⟩ := List.cons.inj split
          exact absurd own other
      | cons first front =>
          obtain ⟨rfl, rfl⟩ := List.cons.inj split
          obtain ⟨_, apart⟩ := List.forall_mem_cons.mp apart
          obtain ⟨bare, empty⟩ := List.forall_mem_cons.mp empty
          exact ⟨bare, front, coin, rest, rfl, apart, own, exact_sum, empty⟩
    · rintro ⟨bare, front, coin, rest, rfl, apart, own, exact_sum, empty⟩
      exact ⟨c :: front, coin, rest, rfl, List.forall_mem_cons.mpr ⟨other, apart⟩, own, exact_sum,
        List.forall_mem_cons.mpr ⟨bare, empty⟩⟩

/-- Coins cover another one exactly when nothing is left of them once it is taken out. -/
theorem covers_iff {coin : Coin} : Covers coins coin.denom coin.amount.val ↔
    ∃ left, Escrow.takeOut coin coins = .ok left ∧ ∀ c ∈ left, c.amount = .zero := by
  induction coins with
  | nil => simp [Covers, Escrow.takeOut]
  | cons c coins ih =>
      rw [covers_cons, Escrow.takeOut]
      split
      next own =>
        cases paid : c.amount.sub? coin.amount with
        | none =>
            have short := Amount.sub?_eq_none.mp paid
            simp only [reduceCtorEq, false_and, exists_false, iff_false]
            omega
        | some left =>
            have change := Amount.sub?_eq_some.mp paid
            simp only [Except.ok.injEq, exists_eq_left', List.forall_mem_cons, Amount.ext_iff,
              Amount.val_zero]
            refine and_congr_left fun _ => ?_
            omega
      next other =>
        rw [ih]
        cases Escrow.takeOut coin coins <;> simp [Except.map]

end Coin

/-- The coin of a transfer is attached, and nothing else. -/
theorem Transfer.attached_iff (fits : t.worth < Nat.pow 2 128) {coins : List Coin} :
    (∃ left, Escrow.takeOut t.coin coins = .ok left ∧
      left.filter (·.amount ≠ Amount.zero) = []) ↔ Coin.Covers coins t.token.denom t.worth := by
  have covers : Coin.Covers coins t.coin.denom t.coin.amount.val ↔ _ := Coin.covers_iff
  rw [coin_amount fits] at covers
  simp only [List.filter_eq_nil_iff, decide_eq_true_eq, not_not]
  exact covers.symm

/-! ## Acceptance -/

namespace Book.Sends

variable (sends : b.Sends caller destination amount fee t)

include sends

theorem contract : Denom.contract amount.denom = .ok t.token.contract :=
  Denom.contract_eq_ok.mpr (Token.ofCoin_eq_ok.mp sends.token).2

theorem values : t.token.amount.val = amount.amount.val ∧ t.fee.amount.val = fee.amount.val := by
  obtain ⟨f, ofFee, _, own⟩ := sends.fee
  exact ⟨(Token.ofCoin_eq_ok.mp sends.token).1, own ▸ (Token.ofCoin_eq_ok.mp ofFee).1⟩

theorem worth_eq : t.worth = amount.together fee := by
  rw [Transfer.worth, Coin.together, sends.values.1, sends.values.2]

theorem denom_eq : t.token.denom = amount.denom :=
  (Token.ofCoin_eq_ok.mp sends.token).2

end Book.Sends

/-- A send is accepted exactly when it can be made of the book and the ledger has room for it. -/
theorem Store.Keeps.accepts_iff (h : s.Keeps b) (configured : b.config = some config) :
    s.Accepts config caller destination amount fee ↔
      ∃ t, ∃ sum : CoinAmount, b.Sends caller destination amount fee t ∧
        sum.val = b.locked.held t.token.denom + t.worth := by
  constructor
  · intro accepts
    obtain ⟨receiver, parsed⟩ := accepts.destination
    obtain ⟨contract, other, named, named', same⟩ := accepts.contracts
    obtain ⟨held, locked, room⟩ := accepts.room
    obtain ⟨id, next, below⟩ := accepts.next
    rw [h.locked, Except.ok.injEq] at locked
    rw [h.nextId, Except.ok.injEq] at next
    let token : Token := ⟨amount.amount.widen Chain.coin_bits_le, contract⟩
    let feeToken : Token := ⟨fee.amount.widen Chain.coin_bits_le, other⟩
    let t := Pool.sent caller.sender receiver token feeToken id
    have denom : token.denom = amount.denom := Denom.contract_eq_ok.mp named
    have fits : t.worth < Nat.pow 2 128 := accepts.fits
    refine ⟨t, ⟨_, room⟩, ?_, ?_⟩
    · constructor
      case active => exact ⟨config, configured, accepts.active⟩
      case destination => exact parsed
      case token => exact Token.ofCoin_eq_ok.mpr ⟨rfl, denom⟩
      case fee =>
        exact ⟨feeToken, Token.ofCoin_eq_ok.mpr ⟨rfl, Denom.contract_eq_ok.mp named'⟩, same, rfl⟩
      case id => exact next.symm
      case room => exact below
      case sender => rfl
      case waits => rfl
      case positive => exact Nat.pos_iff_ne_zero.mp accepts.positive
      case fits => exact fits
      case attached =>
        refine (Transfer.attached_iff fits).mpr ?_
        show Coin.Covers caller.funds token.denom (amount.together fee)
        rw [denom]
        exact accepts.covered
    · show held.val + amount.together fee = b.locked.held token.denom + amount.together fee
      rw [denom, Holdings.held, locked]
  · rintro ⟨t, sum, sends, credited⟩
    obtain ⟨c, found, active⟩ := sends.active
    obtain ⟨f, ofFee, same, _⟩ := sends.fee
    have fits := sends.fits
    have covered := (Transfer.attached_iff fits).mp sends.attached
    rw [sends.denom_eq, sends.worth_eq] at covered credited
    rw [sends.worth_eq] at fits
    constructor
    case active =>
      rw [configured, Option.some.injEq] at found
      exact found ▸ active
    case destination => exact ⟨_, sends.destination⟩
    case contracts =>
      have named := Denom.contract_eq_ok.mpr (Token.ofCoin_eq_ok.mp ofFee).2
      exact ⟨_, _, sends.contract, named, same⟩
    case positive => exact Nat.pos_iff_ne_zero.mpr (sends.values.1 ▸ sends.positive)
    case fits => exact fits
    case covered => exact covered
    case room => exact ⟨_, h.locked _, credited ▸ sum.isLt⟩
    case next =>
      exact ⟨t.id, by rw [h.nextId, sends.id]; rfl, sends.room⟩

/-! ## Taking in -/

/-- A send leaves the rows of other cells as they are. -/
theorem Book.row_accept {c : Cell}
    (other : c ∉ [Cell.nextId, .transfer t.id, Store.feeCell t, .locked t.token.denom]) :
    (b.accept t sum).row c = b.row c := by
  simp only [List.mem_cons, List.not_mem_nil, or_false, not_or] at other
  obtain ⟨notCounter, notTransfer, notFee, notLocked⟩ := other
  cases c with
  | transfer id =>
      have apart : id ≠ t.id := fun same => notTransfer (same ▸ rfl)
      exact congrArg (Option.map Codec.bytes) (Function.update_of_ne apart _ _)
  | fee contract amount id =>
      refine row_fee_congr ⟨fun listed => listed.resolve_left fun same => ?_, .inr⟩
      exact notFee (congrArg Position.cell same)
  | nextId => exact absurd rfl notCounter
  | locked denom =>
      have apart : denom ≠ t.token.denom := fun same => notLocked (same ▸ rfl)
      rw [row, locked_accept, Function.update_of_ne apart, row]
  | _ => rfl

theorem Store.Keeps.takes_in (h : s.Keeps b) (sound : b.Sound)
    (sends : b.Sends caller destination amount fee t)
    (credited : sum.val = b.locked.held t.token.denom + t.worth)
    (h' : s'.Keeps (b.accept t sum)) : s.TakesIn s' caller destination amount fee t := by
  have new := sound.not_kept_new sends.id
  obtain ⟨f, _, _, own⟩ := sends.fee
  constructor
  case id => rw [h.nextId, sends.id]; rfl
  case sender => exact sends.sender
  case destination => exact sends.destination
  case contract => exact sends.contract
  case spelled => rw [own]
  case values => exact sends.values
  case waits => exact sends.waits
  case absent =>
    refine ⟨by rw [h.transfer?, new], ?_⟩
    have unlisted : t.position ∉ b.listed := by
      intro listed
      obtain ⟨u, kept, _⟩ := sound.listed_iff.mp listed
      exact nomatch new.symm.trans kept
    rw [h.get?_key]
    exact if_neg unlisted
  case kept =>
    refine ⟨?_, ?_⟩
    · rw [h'.transfer?]
      exact congrArg Except.ok (Function.update_self _ _ _)
    · rw [h'.get?_key]
      exact if_pos (Set.mem_insert _ _)
  case counted => exact ⟨t.id + 1, h'.nextId, toNat_succ sends.room⟩
  case locked =>
    refine ⟨_, _, h.locked _, h'.locked _, ?_⟩
    rw [← sends.denom_eq, ← sends.worth_eq, Book.locked_accept, Function.update_self,
      Option.getD_some]
    exact credited
  case rest =>
    rw [← sends.denom_eq]
    intro key other
    exact h.get?_eq_of_row h' (fun _ => Book.row_accept) other

theorem Store.Keeps.send_exact (h : s.Keeps b) (sound : b.Sound) : s.SendExact := by
  obtain ⟨config, configured, _⟩ := sound.config_bounds
  refine ⟨⟨config, h.config_eq_ok.mpr configured, fun env caller destination amount fee => ?_⟩, ?_⟩
  · rw [h.accepts_iff configured]
    constructor
    · rintro ⟨r, answer⟩
      have done : (Bridge.send caller destination amount fee).run s = (.ok r, _) :=
        run_atomic_eq_ok.mp (Prod.ext answer rfl)
      obtain ⟨t, sum, sends, credited, _⟩ := (Bridge.run_send_eq_ok h).mp done
      exact ⟨t, sum, sends, credited⟩
    · rintro ⟨t, sum, sends, credited⟩
      have keeps := Keeps.accept (t := t) (h.saveLocked t.token.denom sum)
      have done := (Bridge.run_send_eq_ok h).mpr ⟨t, sum, sends, credited, rfl, keeps⟩
      exact ⟨_, congrArg Prod.fst (run_atomic_eq_ok.mpr done)⟩
  · intro env caller destination amount fee r s' ran
    obtain ⟨t, sum, sends, credited, rfl, keeps⟩ :=
      (Bridge.run_send_eq_ok h).mp (run_atomic_eq_ok.mp ran)
    exact ⟨t, h.takes_in sound sends credited keeps,
      List.mem_cons_of_mem _ List.mem_cons_self, rfl⟩

/-- In every reachable store a send succeeds exactly when it is accepted, and is then taken in. -/
theorem Reachable.sendExact (h : Reachable s) : s.SendExact :=
  h.keeps.send_exact h.sound

/-- On a bridge that was just set up the first send succeeds, and does not when its coin comes
twice. -/
theorem sendExact_on_plainStore : ∃ s : Store, Reachable s ∧ s.SendExact ∧
    Chain.firstSend.Succeeds s ∧ ∀ env, ¬ (Call.command env
      ⟨"sender", List.replicate 2 ⟨Denom.ofContract .zero, Chain.firstSum⟩⟩
      (.send Address.zero.spelling Chain.firstAmount Chain.firstFee)).Succeeds s := by
  have reached : Reachable Chain.plainStore := .founded Chain.founded_plainStore
  have sends := reached.sendExact
  obtain ⟨_, r, _, _, _, ran, _⟩ := Chain.run_firstSend
  obtain ⟨config, _, succeeds_iff⟩ := sends.succeeds_iff
  refine ⟨_, reached, sends, ⟨r, congrArg Prod.fst ran⟩, fun env succeeds => ?_⟩
  have covered := ((succeeds_iff env _ _ _ _).mp succeeds).covered
  -- the first coin covers the send, so the second one is left over
  have own : Denom.ofContract .zero = Chain.firstAmount.denom := rfl
  rw [List.replicate_succ, Coin.covers_cons, if_pos own] at covered
  have empty := covered.2 _ List.mem_cons_self
  exact absurd (congrArg Amount.val empty) (by decide)

end BridgePool
