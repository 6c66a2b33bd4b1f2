import BridgePool.Proofs.Bridge.Execute
import BridgePool.Proofs.Bridge.Setup

/-!
# Runs of the bridge on a book

A successful call on a store with a sound book comes to an `Outcome`, and the deeds of that
outcome lead to the book of the new store (`Call.run_ok`); a call that stops leaves the store as
it was (`Call.run_error`). By induction over the calls, every reachable store is legible and its
book is sound (`Reachable.keeps`, `Reachable.sound`), so what every outcome does to a book holds of
every call (`Reachable.of_outcome`).
-/

namespace BridgePool

open Operation

variable {b : Book} {s s' : Store} {c : Call} {r : Response}

namespace Call

theorem run_error {fault : Fault} (done : c.run s = (.error fault, s')) : s' = s := by
  rw [run, run_atomic] at done
  split at done
  next => cases (Prod.mk.inj done).1
  next => exact (Prod.mk.inj done).2.symm

/-- What a command comes to. -/
theorem execute_ok (h : s.Keeps b) (sound : b.Sound) {env : Env} {caller : Caller}
    {command : Command} (done : (Bridge.execute env caller command).run s = (.ok r, s')) :
    ∃ ds b', Outcome b (.command env caller command) r ds ∧ Moves b ds b' ∧ s'.Keeps b' := by
  -- each command succeeds under conditions on the book only, and they make up its outcome
  cases command with
  | send destination amount fee =>
      obtain ⟨t, sum, sends, credited, rfl, keeps⟩ := (Bridge.run_send_eq_ok h).mp done
      exact ⟨_, _, .send sends, (sends.move credited).single, keeps⟩
  | cancelSend id =>
      obtain ⟨t, kept, own, waits, bare, rfl, keeps⟩ := (Bridge.run_cancelSend_eq_ok h sound).mp done
      obtain rfl := sound.transfer_id kept
      exact ⟨_, _, .cancelSend own bare, (Move.refund kept waits).single, keeps⟩
  | requestBatch text =>
      obtain ⟨c, contract, batch, config, active, parsed, observed, gathers, timeout, block, rfl,
        keeps⟩ := (Bridge.run_requestBatch_eq_ok h sound).mp done
      exact ⟨_, _, .requestBatch config active parsed gathers block,
        (Move.gather config active observed gathers timeout).single, keeps⟩
  | cancelBatch nonce =>
      obtain ⟨c, batch, config, admin, recorded, opened, rfl, keeps⟩ :=
        (Bridge.run_cancelBatch_eq_ok h sound).mp done
      obtain rfl := sound.batch_nonce recorded
      exact ⟨_, _, .cancelBatch config admin, (Move.disband recorded opened (.inl rfl)).single,
        keeps⟩
  | configure batchSize timeoutBlocks bridge =>
      obtain ⟨c, c', reported, config, admin, changed, bounds, rfl, keeps⟩ :=
        Bridge.run_configure_ok h sound done
      exact ⟨_, _, .configure config admin changed, (Move.configure bounds).single, keeps⟩
  | pause =>
      obtain ⟨c, config, admin, rfl, keeps⟩ := (Bridge.run_setPaused_eq_ok h).mp done
      have within : Config.InBounds { c with paused := true } :=
        (sound.bounds config).congr rfl rfl
      exact ⟨_, _, .pause config admin, (Move.configure within).single, keeps⟩
  | unpause =>
      obtain ⟨c, config, admin, rfl, keeps⟩ := (Bridge.run_setPaused_eq_ok h).mp done
      have within : Config.InBounds { c with paused := false } :=
        (sound.bounds config).congr rfl rfl
      exact ⟨_, _, .unpause config admin, (Move.configure within).single, keeps⟩
  | propose candidate =>
      have proposed : (Bridge.propose env caller candidate).run s = (.ok r, s') := done
      obtain ⟨c, notBefore, config, admin, checked, later, rfl, keeps⟩ :=
        (Bridge.run_propose_eq_ok h).mp proposed
      have move := Move.propose (b := b) (p := some ⟨candidate, notBefore⟩)
      exact ⟨_, _, .propose config admin checked later, move.single, keeps⟩
  | accept =>
      obtain ⟨c, p, config, proposed, candidate, due, rfl, keeps⟩ :=
        (Bridge.run_accept_eq_ok h).mp done
      have within : Config.InBounds { c with admin := p.candidate } :=
        (sound.bounds config).congr rfl rfl
      have withdrawn := Move.propose (b := { b with config := some { c with admin := p.candidate } })
        (p := none)
      exact ⟨_, _, .accept config proposed candidate due,
        .next (.configure within) withdrawn.single, keeps⟩
  | withdraw =>
      obtain ⟨c, config, admin, rfl, keeps⟩ := (Bridge.run_withdraw_eq_ok h).mp done
      have move := Move.propose (b := b) (p := none)
      exact ⟨_, _, .withdraw config admin, move.single, keeps⟩

/-- What a host event comes to. -/
theorem report_ok (h : s.Keeps b) (sound : b.Sound) {event : HostEvent}
    (done : (Bridge.report event).run s = (.ok r, s')) :
    ∃ ds b', Outcome b (.hostEvent event) r ds ∧ Moves b ds b' ∧ s'.Keeps b' := by
  cases event with
  | endBlock height =>
      obtain ⟨now, bs, s₁, b', rises, expires, done', keeps, moves⟩ :=
        Bridge.run_endBlock h sound height
      obtain ⟨answer, rfl⟩ := Prod.mk.inj (done.symm.trans done')
      obtain rfl := Except.ok.inj answer
      exact ⟨_, b', .endBlock rises expires, moves, keeps⟩
  | batchExecuted nonce =>
      obtain ⟨batch, ts, recorded, opened, kept, rfl, keeps⟩ :=
        (Bridge.run_batchExecuted_eq_ok h sound).mp done
      obtain rfl := sound.batch_nonce recorded
      exact ⟨_, _, .batchExecuted, (Move.settle recorded opened kept).single, keeps⟩

/-- A successful call comes to an outcome, whose deeds lead to the new book. -/
theorem run_ok (h : s.Keeps b) (sound : b.Sound) (done : c.run s = (.ok r, s')) :
    ∃ ds b', Outcome b c r ds ∧ Moves b ds b' ∧ s'.Keeps b' := by
  have done := run_atomic_eq_ok.mp done
  cases c with
  | command env caller command => exact execute_ok h sound done
  | hostEvent event => exact report_ok h sound done
  | upgrade =>
      obtain ⟨s₁, done', keeps⟩ := Bridge.run_upgrade h sound
      obtain ⟨answer, rfl⟩ := Prod.mk.inj (done.symm.trans done')
      obtain rfl := Except.ok.inj answer
      have move := Move.mark (b := b) (r := Release.current)
      exact ⟨_, _, .upgrade, move.single, keeps⟩

end Call

/-! ## Reachable stores -/

theorem Chain.Founded.keeps {m : Setup} (h : Chain.Founded m s) :
    s.Keeps s.book ∧ s.book.Sound := by
  obtain ⟨r, done⟩ := h
  obtain ⟨c, bounds, _, _, keeps⟩ := Bridge.run_setUp_ok done
  rw [keeps.book_eq]
  exact ⟨keeps, Book.sound_founded bounds⟩

/-- One call keeps what holds of a store. -/
theorem Call.keeps_run (h : s.Keeps s.book) (sound : s.book.Sound) (c : Call) :
    (c.run s).2.Keeps (c.run s).2.book ∧ (c.run s).2.book.Sound := by
  rcases ran : c.run s with ⟨fault | r, s'⟩
  · obtain rfl := run_error ran
    exact ⟨h, sound⟩
  · obtain ⟨ds, b', _, moves, keeps⟩ := run_ok h sound ran
    show s'.Keeps s'.book ∧ s'.book.Sound
    rw [keeps.book_eq]
    exact ⟨keeps, sound.moves moves⟩

theorem Reachable.keeps_sound (h : Reachable s) : s.Keeps s.book ∧ s.book.Sound := by
  induction h with
  | founded founded => exact founded.keeps
  | call c _ ih => exact c.keeps_run ih.1 ih.2

/-- Every row of a reachable store is in place. -/
theorem Reachable.keeps (h : Reachable s) : s.Keeps s.book :=
  h.keeps_sound.1

theorem Reachable.sound (h : Reachable s) : s.book.Sound :=
  h.keeps_sound.2

/-- What holds of a call that stops, and of the outcomes of one that succeeds, holds of every call
on a reachable store. -/
theorem Reachable.of_outcome {P : Book → Except Fault Response → Prop} (h : Reachable s) (c : Call)
    (stops : ∀ fault, c.run s = (.error fault, s) → P s.book (.error fault))
    (succeeds : ∀ r ds b', Outcome s.book c r ds → Moves s.book ds b' → P b' (.ok r)) :
    P (c.run s).2.book (c.run s).1 := by
  rcases ran : c.run s with ⟨fault | r, s'⟩
  · obtain rfl := Call.run_error ran
    exact stops fault ran
  · obtain ⟨ds, b', outcome, moves, keeps⟩ := Call.run_ok h.keeps h.sound ran
    show P s'.book (.ok r)
    rw [keeps.book_eq]
    exact succeeds r ds b' outcome moves

/-! ## A first send -/

namespace Chain

/-- A setup with usual parameters. -/
def plainSetup : Setup :=
  ⟨"admin", none, none, none⟩

/-- The store that it makes. -/
def plainStore : Store :=
  ((Bridge.setUp plainSetup).run .empty).2

theorem founded_plainStore : Founded plainSetup plainStore :=
  ⟨_, rfl⟩

/-- The amount of the first send. -/
def firstAmount : Coin :=
  ⟨Denom.ofContract .zero, ⟨100, by decide⟩⟩

/-- The fee of the first send. -/
def firstFee : Coin :=
  ⟨Denom.ofContract .zero, ⟨10, by decide⟩⟩

/-- What comes with the first send. -/
def firstSum : CoinAmount :=
  ⟨110, by decide⟩

/-- There is room for a coin's amount in a token's. -/
theorem coin_bits_le : 128 ≤ 256 := by
  decide

/-- The transfer of the first send. -/
def firstTransfer : Transfer where
  id := 1
  sender := "sender"
  destination := .zero
  token := ⟨firstAmount.amount.widen coin_bits_le, .zero⟩
  fee := ⟨firstFee.amount.widen coin_bits_le, .zero⟩
  state := .unbatched

/-- A send of a hundred vouchers for a fee of ten. -/
def firstSend : Call :=
  .command ⟨1, ⟨0⟩⟩ ⟨"sender", [⟨Denom.ofContract .zero, firstSum⟩]⟩
    (.send Address.zero.spelling firstAmount firstFee)

/-- The same amount and fee of any contract. -/
def plainTransfer (contract : Address) (id : UInt64) : Transfer :=
  { firstTransfer with
    id
    token := ⟨firstTransfer.token.amount, contract⟩
    fee := ⟨firstTransfer.fee.amount, contract⟩ }

/-- A send of a hundred vouchers of a contract for a fee of ten makes that transfer. -/
theorem sends_plainTransfer {b : Book} (contract : Address)
    (active : ∃ c, b.config = some c ∧ c.paused = false) (room : b.next.toNat + 1 < UInt64.size) :
    b.Sends ⟨"sender", [⟨Denom.ofContract contract, firstSum⟩]⟩ Address.zero.spelling
      ⟨Denom.ofContract contract, firstAmount.amount⟩ ⟨Denom.ofContract contract, firstFee.amount⟩
      (plainTransfer contract b.next) where
  active := active
  destination := Address.parse_spelling _
  token := by
    rw [Token.ofCoin, Denom.contract_ofContract]
    rfl
  fee := by
    refine ⟨(plainTransfer contract b.next).fee, ?_, rfl, rfl⟩
    rw [Token.ofCoin, Denom.contract_ofContract]
    rfl
  id := rfl
  room := room
  sender := rfl
  waits := rfl
  positive := show firstTransfer.token.amount.val ≠ 0 by decide
  fits := show firstTransfer.worth < Nat.pow 2 128 by decide
  attached := by
    have same : (plainTransfer contract b.next).coin = ⟨Denom.ofContract contract, firstSum⟩ := rfl
    refine ⟨[⟨Denom.ofContract contract, .zero⟩], ?_, by simp⟩
    rw [same, Escrow.takeOut, if_pos rfl]
    rfl

/-- It goes through when the ledger has room for it, and is answered the next id. -/
theorem run_plainSend {b : Book} (keeps : s.Keeps b) (contract : Address)
    (active : ∃ c, b.config = some c ∧ c.paused = false) (room : b.next.toNat + 1 < UInt64.size)
    {sum : CoinAmount}
    (credited : sum.val = b.locked.held (Denom.ofContract contract) + firstSum.val) (env : Env) :
    ∃ r s', (Call.command env ⟨"sender", [⟨Denom.ofContract contract, firstSum⟩]⟩
        (.send Address.zero.spelling ⟨Denom.ofContract contract, firstAmount.amount⟩
          ⟨Denom.ofContract contract, firstFee.amount⟩)).run s = (.ok r, s') ∧
      ("transaction_id", spellWord b.next) ∈ r.attributes ∧
        s'.Keeps (b.accept (plainTransfer contract b.next) sum) := by
  have locked := keeps.saveLocked (Denom.ofContract contract) sum
  have kept := Store.Keeps.accept (t := plainTransfer contract b.next) locked
  have sent := (Bridge.run_send_eq_ok keeps).mpr
    ⟨_, sum, sends_plainTransfer contract active room, credited, rfl, kept⟩
  exact ⟨_, _, run_atomic_eq_ok.mpr sent, List.mem_cons_of_mem _ List.mem_cons_self, kept⟩

/-- On a bridge that was just set up the first send succeeds, and is answered the id one. -/
theorem run_firstSend_founded {config : Config} (active : config.paused = false)
    (keeps : s.Keeps (.founded config)) :
    ∃ r, ("transaction_id", spellWord 1) ∈ r.attributes ∧
      firstSend.run s = (.ok r, (firstSend.run s).2) ∧
        (firstSend.run s).2.Keeps ((Book.founded config).accept firstTransfer firstSum) := by
  have room : (1 : UInt64).toNat + 1 < UInt64.size := by decide
  have credited : firstSum.val =
      (Book.founded config).locked.held (Denom.ofContract .zero) + firstSum.val := rfl
  obtain ⟨r, s', ran, named, kept⟩ :=
    run_plainSend keeps .zero ⟨config, rfl, active⟩ room credited ⟨1, ⟨0⟩⟩
  have ran : firstSend.run s = (.ok r, s') := ran
  rw [ran]
  exact ⟨r, named, rfl, kept⟩

/-- The first send succeeds, and is answered the id one. -/
theorem run_firstSend : ∃ config r, config.InBounds ∧ config.paused = false ∧
    ("transaction_id", spellWord 1) ∈ r.attributes ∧
      firstSend.run plainStore = (.ok r, (firstSend.run plainStore).2) ∧
        (firstSend.run plainStore).2.Keeps
          ((Book.founded config).accept firstTransfer firstSum) := by
  obtain ⟨r, done⟩ := founded_plainStore
  obtain ⟨config, bounds, active, _, keeps⟩ := Bridge.run_setUp_ok done
  obtain ⟨r, named, ran, kept⟩ := run_firstSend_founded active keeps
  exact ⟨config, r, bounds, active, named, ran, kept⟩

end Chain

end BridgePool
