import BridgePool.Proofs.Settlement.Receipt

/-!
# Four kinds of steps

To the sends of a book a step does one of four things (`Chain.Turn`): it accepts one, it refunds
one, it settles those of a batch, or it leaves them alone and asks the bank for nothing. Every call
on a reachable store is of one kind (`Reachable.turn`).
-/

namespace BridgePool

open Chain

/-- What a step does to the sends of a book. -/
inductive Chain.Turn (b b' : Book) : Step → Prop
  | accept {env : Env} {caller : Caller} {destination : String} {amount fee : Coin} {t : Transfer}
      {r : Response} (sends : b.Sends caller destination amount fee t)
      (answered : ∀ id, ("transaction_id", spellWord id) ∈ r.attributes ↔ t.id = id)
      (silent : r.messages = [])
      (sent : b'.sent = Function.update b.sent t.id (some t)) (counted : b'.next = b.next + 1) :
      Turn b b' ⟨.command env caller (.send destination amount fee), .ok r⟩
  | refund {env : Env} {caller : Caller} {t : Transfer} {r : Response}
      (kept : b.transfer t.id = some t) (own : t.sender = caller.sender)
      (messages : r.messages = [.send t.sender [t.coin]])
      (sent : b'.sent = Function.update b.sent t.id none) (counted : b'.next = b.next) :
      Turn b b' ⟨.command env caller (.cancelSend t.id), .ok r⟩
  | settle {batch : Batch} {ts : List Transfer} {r : Response}
      (recorded : b.batch batch.nonce = some batch)
      (kept : batch.ids.map b.transfer = ts.map some)
      (messages : r.messages = ts.map fun t => .burn [t.coin])
      (sent : ∀ id, b'.sent id = if id ∈ batch.ids then none else b.sent id)
      (counted : b'.next = b.next) :
      Turn b b' ⟨.hostEvent (.batchExecuted batch.nonce), .ok r⟩
  | rest {e : Step} (silent : e.messages = [])
      (sent : b'.sent = b.sent) (counted : b'.next = b.next)
      (refused : ∀ env caller destination amount fee r,
        e ≠ ⟨.command env caller (.send destination amount fee), .ok r⟩) :
      Turn b b' e

variable {b b' : Book} {c : Call} {r : Response} {ds : List Deed}

/-- The send's answer names one id. -/
theorem Outcome.answered {caller : Caller} {destination : String} {amount fee : Coin}
    {t : Transfer} (id : UInt64) :
    ("transaction_id", spellWord id) ∈
      (Bridge.sendAccepted caller destination amount fee t.id []).attributes ↔ t.id = id := by
  constructor
  · intro named
    simp [Bridge.sendAccepted] at named
    exact spellWord_inj named.symm
  · rintro rfl
    simp [Bridge.sendAccepted]

/-- A step whose deeds leave the sends alone. -/
theorem Chain.Turn.of_leaving (moves : Moves b ds b') (leave : ∀ d ∈ ds, d.LeavesSends)
    (silent : r.messages = [])
    (refused : ∀ env caller destination amount fee,
      c ≠ .command env caller (.send destination amount fee)) : Turn b b' ⟨c, .ok r⟩ := by
  obtain ⟨sent, counted⟩ := moves.sent_eq leave
  refine .rest silent sent counted ?_
  intro env caller destination amount fee r' same
  exact refused _ _ _ _ _ (Step.mk.inj same).1

/-- A successful step is of one of the four kinds. -/
theorem Outcome.turn (h : Outcome b c r ds) (moves : Moves b ds b') : Turn b b' ⟨c, .ok r⟩ := by
  cases h with
  | send sends =>
      cases moves.of_single with
      | accept own_id _ waits _ _ _ =>
          refine .accept sends (fun _ => answered _) rfl ?_ (congrArg (· + 1) own_id)
          exact (Book.sent_update _ _ _).trans
            (congrArg (fun u => Function.update b.sent _ (some u)) (Transfer.asSent_of_waits waits))
  | cancelSend own bare =>
      cases moves.of_single with
      | refund kept _ => exact .refund kept own rfl (Book.sent_update _ _ _) rfl
  | batchExecuted =>
      cases moves.of_single with
      | settle recorded _ kept => exact .settle recorded kept rfl (Book.without_asSent _) rfl
  | endBlock => exact .of_leaving moves (by simp [Deed.LeavesSends]) rfl nofun
  | _ => exact .of_leaving moves (by simp [Deed.LeavesSends]) rfl nofun

/-- Every call on a reachable store is of one of the four kinds. -/
theorem Reachable.turn {s : Store} (h : Reachable s) (c : Call) :
    Turn s.book (c.run s).2.book ⟨c, (c.run s).1⟩ := by
  refine h.of_outcome (P := fun b' answer => Turn s.book b' ⟨c, answer⟩) c ?_ ?_
  · exact fun _ _ => .rest rfl rfl rfl nofun
  · exact fun _ _ _ outcome moves => outcome.turn moves

/-! ## What a step does to a send -/

variable {p : Receipt} {t : Transfer} {id : UInt64}

/-- The id of a send is new. -/
theorem Book.Sends.unused {caller : Caller} {destination : String} {amount fee : Coin}
    (sends : b.Sends caller destination amount fee t) (recorded : b.Recorded) :
    b.sent t.id = none := by
  rw [sent_eq_none, sends.id]
  exact recorded.not_kept_next

namespace Chain

namespace Turn

variable {e : Step} (turn : Turn b b' e)

include turn in
/-- Ids that were given out stay given out. -/
theorem next_le : b.next ≤ b'.next := by
  cases turn with
  | accept sends _ _ _ counted =>
      rw [counted, ← sends.id, UInt64.le_iff_toNat_le, toNat_succ sends.room]
      exact Nat.le_succ _
  | refund _ _ _ _ counted => exact counted ▸ UInt64.le_refl _
  | settle _ _ _ _ counted => exact counted ▸ UInt64.le_refl _
  | rest _ _ counted => exact counted ▸ UInt64.le_refl _

include turn in
/-- What is gone of the ids that were given out stays gone. -/
theorem stays_gone (given : id < b.next) (gone : b.sent id = none) : b'.sent id = none := by
  cases turn with
  | accept sends _ _ sent _ =>
      rw [sent, Function.update_of_ne, gone]
      rintro rfl
      exact UInt64.lt_irrefl _ (sends.id ▸ given)
  | refund _ _ _ sent _ =>
      rw [sent, Function.update_apply, gone]
      split <;> rfl
  | settle _ _ _ sent _ =>
      rw [sent, gone]
      split <;> rfl
  | rest _ sent => rw [sent, gone]

include turn in
/-- What a step leaves of a send is what it was. -/
theorem stays_same (recorded : b.Recorded) (kept : b.sent id = some t)
    (left : b'.sent id ≠ none) : b'.sent id = some t := by
  cases turn with
  | accept sends _ _ sent _ =>
      rw [sent, Function.update_of_ne, kept]
      rintro rfl
      rw [sends.unused recorded] at kept
      cases kept
  | refund _ _ _ sent _ =>
      rw [sent, Function.update_apply] at left ⊢
      split at left
      next => exact absurd rfl left
      next apart => rw [if_neg apart, kept]
  | settle _ _ _ sent _ =>
      rw [sent] at left ⊢
      split at left
      next => exact absurd rfl left
      next absent => rw [if_neg absent, kept]
  | rest _ sent => rw [sent, kept]

include turn in
/-- A step that issues a receipt makes the record of it, under the next id. -/
theorem of_issues (issues : e.Issues p) :
    p.id = b.next ∧ p.id < b'.next ∧ ∃ t, b'.sent p.id = some t ∧ p.Records t := by
  obtain ⟨env, funds, r, rfl, named⟩ := issues
  cases turn with
  | accept sends answered _ sent counted =>
      have same := (answered p.id).mp named
      have records := Receipt.records_of_sends sends
      rw [same] at records
      refine ⟨same ▸ sends.id, ?_, _, ?_, records⟩
      · rw [counted, ← sends.id, ← same, UInt64.lt_iff_toNat_lt, toNat_succ sends.room]
        exact Nat.lt_succ_self _
      · rw [sent, same, Function.update_self]
  | rest _ _ _ refused => exact absurd rfl (refused _ _ _ _ _ _)

include turn in
/-- A record that was not there before has a receipt. -/
theorem exists_receipt (made : b'.sent id = some t) :
    b.sent id = some t ∨ ∃ p, e.Issues p ∧ p.Records t := by
  cases turn with
  | accept sends answered _ sent _ =>
      rw [sent, Function.update_apply] at made
      split at made
      next =>
        obtain rfl := Option.some.inj made
        exact .inr ⟨_, ⟨_, _, _, rfl, (answered _).mpr rfl⟩, Receipt.records_of_sends sends⟩
      next => exact .inl made
  | refund _ _ _ sent _ => exact .inl (update_none_eq_some.mp (sent ▸ made)).2
  | settle _ _ _ sent _ =>
      rw [sent] at made
      split at made
      next => cases made
      next => exact .inl made
  | rest _ sent _ _ => exact .inl (sent ▸ made)

end Turn

/-- What a step takes away is refunded or burned. -/
theorem Moment.pays_of_gone {m : Moment} (turn : Turn b b' m.toStep) (sound : b.Sound)
    (h : m.before.Keeps b) (records : p.Records t) (there : b.sent id = some t)
    (gone : b'.sent id = none) : m.Refunds p ∨ m.Burns p := by
  obtain ⟨u, found, rfl⟩ := Option.map_eq_some_iff.mp there
  have records := records.of_asSent
  generalize step : m.toStep = e at turn
  cases turn with
  | accept _ _ _ sent _ =>
      rw [sent, Function.update_apply] at gone
      split at gone
      next => cases gone
      next => rw [there] at gone; cases gone
  | refund kept own messages sent _ =>
      rw [sent, Function.update_apply] at gone
      split at gone
      next same =>
        rw [same, kept, Option.some.injEq] at found
        obtain rfl := found
        exact .inl (Step.refunds records (sound.fits kept) own messages)
      next => rw [there] at gone; cases gone
  | settle recorded kept messages sent _ =>
      rw [sent] at gone
      split at gone
      next listed =>
        exact .inr (burns sound h step recorded kept messages listed found records)
      next => rw [there] at gone; cases gone
  | rest _ sent => rw [sent, there] at gone; cases gone

end Chain

end BridgePool
