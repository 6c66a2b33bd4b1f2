import BridgePool.Proofs.Book.Moves

/-!
# The sends of a book

`Book.sent` are the records as they were sent: without the state that a record changes as batches
take it and give it back. A deed that neither accepts a transfer nor pays for one leaves the sends
alone (`Move.sent_eq`). What a book is worth is a matter of its sends (`Book.worthOf_sent`), and
changes as they do.
-/

namespace BridgePool

variable {b b' : Book} {d : Deed} {ds : List Deed}

/-- A transfer as it was sent. -/
def Transfer.asSent (t : Transfer) : Transfer :=
  { t with state := .unbatched }

/-- The records as they were sent. -/
def Book.sent (b : Book) (id : UInt64) : Option Transfer :=
  (b.transfer id).map Transfer.asSent

/-- Whether a deed neither accepts a transfer nor pays for one. -/
def Deed.LeavesSends : Deed → Prop
  | .accept _ => False
  | .refund _ => False
  | .settle _ _ => False
  | _ => True

theorem Transfer.asSent_of_waits {t : Transfer} (waits : t.state = .unbatched) : t.asSent = t := by
  rw [asSent, ← waits]

namespace Book

theorem sent_eq_none {id : UInt64} : b.sent id = none ↔ b.transfer id = none :=
  Option.map_eq_none_iff

/-- What was sent alike is recorded alike but for the state. -/
theorem transfer_of_sent_eq {id : UInt64} {t : Transfer} (same : b'.sent id = b.sent id)
    (kept : b.transfer id = some t) : ∃ state, b'.transfer id = some { t with state } := by
  rw [sent, sent, kept] at same
  obtain ⟨u, found, alike⟩ := Option.map_eq_some_iff.mp same
  refine ⟨u.state, found.trans (congrArg some ?_)⟩
  calc
    u = { u.asSent with state := u.state } := rfl
    _ = { t with state := u.state } := by rw [alike, Transfer.asSent]

theorem sent_update (records : UInt64 → Option Transfer) (id : UInt64) (row : Option Transfer) :
    (fun i => (Function.update records id row i).map Transfer.asSent) =
      Function.update (fun i => (records i).map Transfer.asSent) id (row.map Transfer.asSent) := by
  funext i
  rw [Function.update_apply, Function.update_apply]
  split <;> rfl

/-- Moving records to another state leaves the sends alone. -/
theorem moved_asSent (ids : List UInt64) (waits : TransferState) (id : UInt64) :
    (b.moved ids waits id).map Transfer.asSent = b.sent id := by
  rw [moved, sent]
  split
  · rw [Option.map_map]
    rfl
  · rfl

theorem without_asSent (ids : List UInt64) (id : UInt64) :
    (b.without ids id).map Transfer.asSent = if id ∈ ids then none else b.sent id := by
  rw [without]
  split <;> rfl

/-- The state of a record does not matter to what it is worth. -/
theorem worthOf_asSent (records : UInt64 → Option Transfer) (denom : String) :
    worthOf (fun id => (records id).map Transfer.asSent) denom = worthOf records denom := by
  unfold worthOf
  apply Finset.sum_congr rfl
  intro id _
  show shareOf denom ((records id).map Transfer.asSent) = _
  cases records id <;> rfl

theorem worthOf_sent (b : Book) (denom : String) : worthOf b.sent denom = b.worth denom :=
  worthOf_asSent b.transfer denom

/-- A send that is accepted adds what it is worth. -/
theorem worth_of_accepted {t : Transfer} (unused : b.sent t.id = none)
    (sent : b'.sent = Function.update b.sent t.id (some t)) (denom : String) :
    b'.worth denom = b.worth denom + t.share denom := by
  have change := worthOf_update b.sent t.id (some t) denom
  rw [← sent, worthOf_sent, worthOf_sent, unused, shareOf_none, shareOf_some] at change
  exact change

/-- A send that is refunded takes what it is worth with it. -/
theorem worth_of_refunded {t : Transfer} (kept : b.transfer t.id = some t)
    (sent : b'.sent = Function.update b.sent t.id none) (denom : String) :
    b'.worth denom + t.share denom = b.worth denom := by
  have change := worthOf_update b.sent t.id none denom
  rw [← sent, worthOf_sent, worthOf_sent, Book.sent, kept, shareOf_none] at change
  exact change

/-- Sends that are settled take what they are worth with them. -/
theorem worth_of_settled {ids : List UInt64} {ts : List Transfer} (distinct : ids.Nodup)
    (kept : ids.map b.transfer = ts.map some)
    (sent : ∀ id, b'.sent id = if id ∈ ids then none else b.sent id) (denom : String) :
    b'.worth denom + (ts.map (Transfer.share denom)).sum = b.worth denom := by
  have left : b'.sent = fun id => (b.without ids id).map Transfer.asSent :=
    funext fun id => (sent id).trans (without_asSent ids id).symm
  rw [← b.worthOf_without distinct kept, ← worthOf_sent, left, worthOf_asSent]

end Book

theorem Move.sent_eq (m : Move b d b') (leaves : d.LeavesSends) :
    b'.sent = b.sent ∧ b'.next = b.next := by
  cases m with
  | accept => exact leaves.elim
  | refund => exact leaves.elim
  | settle => exact leaves.elim
  | gather => exact ⟨funext fun id => Book.moved_asSent _ _ id, rfl⟩
  | disband => exact ⟨funext fun id => Book.moved_asSent _ _ id, rfl⟩
  | configure => exact ⟨rfl, rfl⟩
  | propose => exact ⟨rfl, rfl⟩
  | observe => exact ⟨rfl, rfl⟩
  | mark => exact ⟨rfl, rfl⟩

theorem Moves.sent_eq (m : Moves b ds b') (leave : ∀ d ∈ ds, d.LeavesSends) :
    b'.sent = b.sent ∧ b'.next = b.next :=
  ⟨m.preserve Book.sent (fun m leaves => (m.sent_eq leaves).1) leave,
    m.preserve Book.next (fun m leaves => (m.sent_eq leaves).2) leave⟩

end BridgePool
