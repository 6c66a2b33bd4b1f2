import BridgePool.Proofs.Book.Commute
import BridgePool.Proofs.Book.Counters
import BridgePool.Proofs.Recovery
import BridgePool.Proofs.Run
import BridgePool.Proofs.Send

/-!
# Sends that are taken back

Whoever sent a transfer can take it back while it waits, and that undoes the send. However many
sends came after it, the store is then the one that they lead to without it, where the counter has
passed over its id and nothing else has changed (`Reachable.sendsUndo`).

The two runs are held side by side: one store keeps a book with the transfer, the other keeps that
book after its refund.

* `Book.Sound.refund_accept` — a refund right after the send leaves a book that skipped an id
* `Book.Sound.refund_accept_comm` — a refund and a later send can be exchanged
* `Store.Apart.play` — the later sends go through in both runs, and with the same answers
-/

namespace BridgePool

open Chain

/-- Another store that differs in the counter of the transfers alone, which has passed over the
id. -/
structure Store.Skips (s : Store) (id : UInt64) (s' : Store) : Prop where
  next : s.nextId = .ok id
  room : id.toNat + 1 < UInt64.size
  counter : s'.get? Cell.nextId.key = some (Cell.word (id + 1))
  rest : ∀ key, key ≠ Cell.nextId.key → s'.get? key = s.get? key

/-- The sender of a transfer can take it back, and is then paid the coin and nothing else. -/
def Store.TakesBack (s : Store) (sender : String) (id : UInt64) (coin : Coin) (s' : Store) : Prop :=
  ∀ env caller, caller.sender = sender → caller.Bare →
    ∃ r, (Call.command env caller (.cancelSend id)).run s = (.ok r, s') ∧
      r.messages = [.send sender [coin]]

/-- A send that led to `s₁` can be undone now and later; without it the store would be `s₀`. -/
structure Store.UndoesSend (s₀ s₁ : Store) (sender : String) (id : UInt64) (coin : Coin) :
    Prop where
  /-- Now, that is before anything else is sent. -/
  now : s₁.TakesBack sender id coin s₀
  /-- After further sends, which would have gone through without the send, too. -/
  later : ∀ calls steps t₁, play s₁ calls = (steps, t₁) → (∀ e ∈ steps, e.sends) →
    ∃ t₀, play s₀ calls = (steps, t₀) ∧ t₁.TakesBack sender id coin t₀

/-- Every send can be undone, for the one coin with an amount that came with it. -/
def Store.SendsUndo (s : Store) : Prop :=
  ∀ env caller destination amount fee r s₁,
    (Call.command env caller (.send destination amount fee)).run s = (.ok r, s₁) →
      ∃ id coin s₀, ("transaction_id", spellWord id) ∈ r.attributes ∧
        caller.funds.filter (·.amount ≠ Amount.zero) = [coin] ∧ s.Skips id s₀ ∧
          s₀.UndoesSend s₁ caller.sender id coin

open Operation

variable {s s₀ s₁ : Store} {b : Book} {c : Call} {r : Response} {caller : Caller}
  {destination : String} {amount fee : Coin} {t u : Transfer} {sum : CoinAmount}

/-! ## The coin that came with a send -/

/-- Of coins that cover an amount, the one that covers it is the only one with an amount. -/
theorem Coin.Covers.filter_eq {coins : List Coin} {coin : Coin}
    (covers : Covers coins coin.denom coin.amount.val) (positive : coin.amount.val ≠ 0) :
    coins.filter (·.amount ≠ Amount.zero) = [coin] := by
  obtain ⟨front, c, rest, rfl, _, own, value, empty⟩ := covers
  obtain rfl : c = coin := Coin.ext own (Amount.ext value)
  rw [List.forall_mem_append] at empty
  have nonempty : c.amount ≠ Amount.zero := fun zero => positive (congrArg Amount.val zero)
  have nothing {cs : List Coin} (zero : ∀ c ∈ cs, c.amount = Amount.zero) :
      cs.filter (·.amount ≠ Amount.zero) = [] :=
    List.filter_eq_nil_iff.mpr fun c mem => by simp [zero c mem]
  rw [List.filter_append, List.filter_cons, if_pos (decide_eq_true nonempty), nothing empty.1,
    nothing empty.2, List.nil_append]

theorem Book.Sends.funds_eq (sends : b.Sends caller destination amount fee t) :
    caller.funds.filter (·.amount ≠ Amount.zero) = [t.coin] := by
  have value := Transfer.coin_amount sends.fits
  have covers := (Transfer.attached_iff sends.fits).mp sends.attached
  rw [← value] at covers
  refine covers.filter_eq fun zero => ?_
  have positive := sends.positive
  rw [value, Transfer.worth] at zero
  omega

/-! ## Books -/

namespace Book

/-- The book whose counter has passed over one id. -/
def skip (b : Book) : Book :=
  { b with nextId := some (b.next + 1) }

/-- No id that was given out is given out again, and one that was not need not be. -/
theorem Sound.skip (h : b.Sound) (room : b.next.toNat + 1 < UInt64.size) : b.skip.Sound := by
  have rises : b.next < b.skip.next := by
    rw [UInt64.lt_iff_toNat_lt]
    show _ < (b.next + 1).toNat
    rw [toNat_succ room]
    omega
  have below {id : UInt64} (given : 1 ≤ id ∧ id < b.next) : 1 ≤ id ∧ id < b.skip.next :=
    ⟨given.1, UInt64.lt_trans given.2 rises⟩
  exact {
    transfer_id := h.transfer_id, batch_nonce := h.batch_nonce, spelled := h.spelled
    positive := h.positive, first_id := UInt64.le_of_lt (UInt64.lt_of_le_of_lt h.first_id rises)
    fresh := fun kept => below (h.fresh kept), numbered := h.numbered
    listed_iff := h.listed_iff, open_iff := h.open_iff
    carried_iff := h.carried_iff, sized := h.sized
    ids_fresh := fun recorded listed => below (h.ids_fresh recorded listed)
    open_kept := h.open_kept, open_ordered := h.open_ordered
    executed_gone := h.executed_gone, executed_once := h.executed_once
    held_eq := h.held_eq, no_empty_row := h.no_empty_row
    config_bounds := h.config_bounds, height_some := h.height_some }

/-- A send needs the same of a book from which something was paid back. -/
theorem Sends.refund (sends : b.Sends caller destination amount fee u) :
    (b.refund t).Sends caller destination amount fee u :=
  { sends with }

/-- What has room in the ledger has room after something was paid out of it. -/
theorem exists_credit (t : Transfer) (credited : sum.val = b.locked.held u.token.denom + u.worth) :
    ∃ sum' : CoinAmount, sum'.val = (b.refund t).locked.held u.token.denom + u.worth := by
  have paid : (b.refund t).locked.held u.token.denom ≤ b.locked.held u.token.denom := by
    rw [locked_refund, Holdings.held_spend]
    split
    next same =>
      rw [same]
      exact Nat.sub_le _ _
    next => exact Nat.le_refl _
  have room := sum.isLt
  exact ⟨⟨_, by omega⟩, rfl⟩

namespace Sound

variable (h : b.Sound)

include h

/-- A refund right after the send leaves the book from before it, but for the counter. -/
theorem refund_accept (sends : b.Sends caller destination amount fee t)
    (credited : sum.val = b.locked.held t.token.denom + t.worth) :
    (b.accept t sum).refund t = b.skip := by
  have sent := h.move (sends.move credited)
  have kept : (b.accept t sum).transfer t.id = some t := Function.update_self ..
  refine (h.skip (sends.id ▸ sends.room)).eq_of_records (sent.refund kept sends.waits) ?_ rfl ?_
  · show Function.update (Function.update b.transfer t.id (some t)) t.id none = b.transfer
    rw [Function.update_idem, ← h.not_kept_new sends.id, Function.update_eq_self]
  · show ((b.accept t sum).refund t).singles = b.skip.singles
    simp only [singles, Book.skip, ← sends.id]
    rfl

theorem id_ne_new (kept : b.transfer t.id = some t) (own_id : u.id = b.next) : t.id ≠ u.id := by
  intro same
  rw [same, h.not_kept_new own_id] at kept
  cases kept

/-- What was sent before is kept through a send. -/
theorem kept_accept (kept : b.transfer t.id = some t) (own_id : u.id = b.next) :
    (b.accept u sum).transfer t.id = some t :=
  transfer_accept.mpr (.inr ⟨h.id_ne_new kept own_id, kept⟩)

/-- A transfer that waits can be refunded before a send instead of after it. -/
theorem refund_accept_comm (kept : b.transfer t.id = some t) (waits : t.state = .unbatched)
    (sends : b.Sends caller destination amount fee u)
    (credited : sum.val = b.locked.held u.token.denom + u.worth) {sum' : CoinAmount}
    (credited' : sum'.val = (b.refund t).locked.held u.token.denom + u.worth) :
    (b.accept u sum).refund t = (b.refund t).accept u sum' := by
  have still : (b.accept u sum).transfer t.id = some t := h.kept_accept kept sends.id
  have first := (h.refund kept waits).move (sends.refund.move credited')
  have last := (h.move (sends.move credited)).refund still waits
  exact first.eq_of_records last
    (Function.update_comm (h.id_ne_new kept sends.id).symm _ _ _) rfl rfl

end Sound

end Book

/-! ## Stores -/

namespace Store

/-- One store keeps a book with a waiting transfer, and the other one keeps it after the refund. -/
structure Apart (s s₀ : Store) (b : Book) (t : Transfer) : Prop where
  keeps : s.Keeps b
  sound : b.Sound
  kept : b.transfer t.id = some t
  waits : t.state = .unbatched
  keeps₀ : s₀.Keeps (b.refund t)

namespace Apart

theorem takesBack (h : Apart s s₀ b t) : s.TakesBack t.sender t.id t.coin s₀ := by
  intro env caller own bare
  have done := (Bridge.run_cancelSend_eq_ok h.keeps h.sound).mpr
    ⟨t, h.kept, own.symm, h.waits, Caller.bare_iff.mp bare, rfl, h.keeps₀⟩
  exact ⟨_, run_atomic_eq_ok.mpr done, rfl⟩

/-- A send that goes through on the one store does so on the other. -/
theorem send (h : Apart s s₀ b t) {env : Env} (sent :
    (Call.command env caller (.send destination amount fee)).run s = (.ok r, s₁)) :
    ∃ s₂ b₁, (Call.command env caller (.send destination amount fee)).run s₀ = (.ok r, s₂) ∧
      Apart s₁ s₂ b₁ t := by
  obtain ⟨u, sum, sends, credited, answered, keeps⟩ :=
    (Bridge.run_send_eq_ok h.keeps).mp (run_atomic_eq_ok.mp sent)
  obtain ⟨sum', credited'⟩ := Book.exists_credit t credited
  have keeps₀ := Keeps.accept (t := u) (h.keeps₀.saveLocked u.token.denom sum')
  have done := (Bridge.run_send_eq_ok h.keeps₀).mpr
    ⟨u, sum', sends.refund, credited', answered, keeps₀⟩
  have sound := h.sound.move (sends.move credited)
  have kept : (b.accept u sum).transfer t.id = some t := h.sound.kept_accept h.kept sends.id
  rw [← h.sound.refund_accept_comm h.kept h.waits sends credited credited'] at keeps₀
  exact ⟨_, _, run_atomic_eq_ok.mpr done, keeps, sound, kept, h.waits, keeps₀⟩

/-- Sends that go through on the one store do so on the other. -/
theorem play (h : Apart s s₀ b t) {calls : List Call} {steps : List Step}
    (played : play s calls = (steps, s₁)) (all : ∀ e ∈ steps, e.sends) :
    ∃ s₂ b₁, Chain.play s₀ calls = (steps, s₂) ∧ Apart s₁ s₂ b₁ t := by
  induction calls generalizing s s₀ b steps with
  | nil =>
      obtain ⟨rfl, rfl⟩ := Prod.mk.inj played
      exact ⟨s₀, b, rfl, h⟩
  | cons c rest ih =>
      rcases ran : c.run s with ⟨answer, s'⟩
      rw [play_cons, ran] at played
      obtain ⟨rfl, rfl⟩ := Prod.mk.inj played
      obtain ⟨now, later⟩ := List.forall_mem_cons.mp all
      obtain ⟨env, caller, destination, amount, fee, r, rfl, rfl⟩ := Step.sends_iff.mp now
      obtain ⟨s₂, b₂, sent, apart⟩ := h.send ran
      obtain ⟨s₃, b₃, played, apart⟩ := ih apart rfl later
      refine ⟨s₃, b₃, ?_, apart⟩
      rw [play_cons, sent, played]

end Apart

namespace Keeps

theorem skips (h : s.Keeps b) (own_id : t.id = b.next) (room : t.id.toNat + 1 < UInt64.size)
    (h₀ : s₀.Keeps b.skip) : s.Skips t.id s₀ where
  next := by rw [h.nextId, own_id]; rfl
  room := room
  counter := by
    rw [h₀.get?_key, own_id]
    rfl
  rest key other := by
    have same : ∀ c ∉ [Cell.nextId], b.skip.row c = b.row c := by
      intro c apart
      cases c with
      | nextId => exact absurd (List.mem_singleton_self _) apart
      | _ => rfl
    exact h.get?_eq_of_row h₀ same (mt List.mem_singleton.mp other)

/-- Every send can be undone, now and later. -/
theorem sends_undo (h : s.Keeps b) (sound : b.Sound) : s.SendsUndo := by
  intro env caller destination amount fee r s₁ sent
  obtain ⟨t, sum, sends, credited, rfl, keeps₁⟩ :=
    (Bridge.run_send_eq_ok h).mp (run_atomic_eq_ok.mp sent)
  have keeps₀ : (s.saveWord .nextId (b.next + 1)).Keeps b.skip := h.saveNextId (b.next + 1)
  have apart : Apart s₁ _ (b.accept t sum) t :=
    { keeps := keeps₁
      sound := sound.move (sends.move credited)
      kept := Function.update_self ..
      waits := sends.waits
      keeps₀ := (sound.refund_accept sends credited).symm ▸ keeps₀ }
  refine ⟨t.id, t.coin, _, List.mem_cons_of_mem _ List.mem_cons_self, sends.funds_eq,
    h.skips sends.id sends.room keeps₀, ?_⟩
  rw [← sends.sender]
  constructor
  case now => exact apart.takesBack
  case later =>
    intro calls steps t₁ played all
    obtain ⟨t₀, _, same, apart⟩ := apart.play played all
    exact ⟨t₀, same, apart.takesBack⟩

end Keeps

end Store

/-- In every reachable store, every send can be undone, now and later. -/
theorem Reachable.sendsUndo (h : Reachable s) : s.SendsUndo :=
  h.keeps.sends_undo h.sound

/-- On a bridge that was just set up, the first of two sends can be taken back, and the store is
then that of the second one alone. -/
theorem Chain.sendsUndo_on_plainStore : plainStore.SendsUndo ∧ ∃ s₀ s₁ s₂ t₀ r q,
    firstSend.run plainStore = (.ok r, s₁) ∧ firstSend.run s₁ = (.ok q, s₂) ∧
      plainStore.Skips 1 s₀ ∧ firstSend.run s₀ = (.ok q, t₀) ∧
        s₂.TakesBack "sender" 1 ⟨Denom.ofContract .zero, firstSum⟩ t₀ := by
  have undo := (Reachable.founded founded_plainStore).sendsUndo
  obtain ⟨c, r, _, active, _, ran, keeps⟩ := run_firstSend
  -- a second send goes through as the first one did
  let sum : CoinAmount := ⟨firstSum.val + firstSum.val, by decide⟩
  have held : ((Book.founded c).accept firstTransfer firstSum).locked.held
      (Denom.ofContract .zero) = firstSum.val :=
    (Holdings.held_update _ _ _ _).trans (if_pos rfl)
  have credited : sum.val = ((Book.founded c).accept firstTransfer firstSum).locked.held
      (Denom.ofContract .zero) + firstSum.val := by
    rw [held]
  obtain ⟨q, s₂, again, _⟩ := run_plainSend keeps .zero ⟨c, rfl, active⟩
    (show (2 : UInt64).toNat + 1 < UInt64.size by decide) credited ⟨1, ⟨0⟩⟩
  have again : firstSend.run (firstSend.run plainStore).2 = (.ok q, s₂) := again
  obtain ⟨id, coin, s₀, _, funds, skips, undoes⟩ := undo _ _ _ _ _ r _ ran
  obtain rfl : id = 1 := by
    have next : plainStore.nextId = .ok 1 := keeps_plainStore.nextId
    rw [skips.next] at next
    exact Except.ok.inj next
  obtain rfl : ⟨Denom.ofContract .zero, firstSum⟩ = coin := (List.cons.inj funds).1
  have played : play (firstSend.run plainStore).2 [firstSend] = ([⟨firstSend, .ok q⟩], s₂) := by
    rw [play_cons, again]
    rfl
  obtain ⟨t₀, played, back⟩ := undoes.later _ _ _ played (by simp [Step.sends, firstSend])
  rcases alone : firstSend.run s₀ with ⟨answer, s'⟩
  rw [play_cons, alone] at played
  obtain ⟨steps, rfl⟩ := Prod.mk.inj played
  obtain rfl : answer = .ok q := congrArg Step.answer (List.cons.inj steps).1
  exact ⟨undo, s₀, _, s₂, s', r, q, ran, again, skips, alone, back⟩

end BridgePool
