import BridgePool.Proofs.Events
import BridgePool.Proofs.Heights

/-!
# The events replicate the batches

Whoever follows the events of a run knows every batch that the store keeps, in its state and to
the spelling of its contract (`Run.replicated`). A follower starts from nothing, enters a batch
when it is created, and changes its state when its end is reported.

* `Replica.hear` — what a follower makes of an event; one that does not fit is refused;
* `Outcome.heard` — the events of a call lead from the batches before it to those after it.
-/

namespace BridgePool

/-! ## Followers -/

/-- What a follower of the events knows: the batch of every nonce. -/
abbrev Replica : Type :=
  UInt64 → Option Batch

namespace Replica

/-- What a follower knows who heard nothing. -/
def empty : Replica :=
  fun _ => none

/-- What a follower knows with a batch under its nonce. -/
def enter (known : Replica) (batch : Batch) : Replica :=
  Function.update known batch.nonce (some batch)

/-- A new batch must have a new nonce. The end of a batch must repeat what is known of it. -/
def hear (known : Replica) (e : Event) : Option Replica := do
  let batch ← e.told?
  match ← BatchState.reported? e.kind with
  | .open => if known batch.nonce = none then some (known.enter batch) else none
  | state =>
    if known batch.nonce = some batch then some (known.enter { batch with state }) else none

/-- What a follower knows after some events, unless one did not fit. -/
def ofEvents (es : List Event) : Option Replica :=
  es.foldlM hear empty

end Replica

/-- The batches that a store keeps are those that a follower knows. -/
structure Store.ReplicatedBy (s : Store) (known : Replica) : Prop where
  batch : ∀ nonce, s.batch? nonce = .ok (known nonce)
  /-- Every row of a batch is the written form of a known one, under its nonce. -/
  row : ∀ key row, key.head? = some 0x03 → (s.get? key = some row ↔
    ∃ batch : Batch, key = (Cell.batch batch.nonce).key ∧ known batch.nonce = some batch ∧
      row = Codec.bytes batch)

/-- The events of a step; a step that stops has none. -/
def Chain.Step.events (e : Step) : List Event :=
  match e.answer with
  | .ok r => r.events
  | .error _ => []

/-- The events of the set-up and of the moments after it, from the first to the last. -/
def Chain.published (opening : Response) (past : List Moment) : List Event :=
  opening.events ++ past.flatMap (·.events)

/-! ## Events of batches -/

namespace Replica

variable {known : Replica} {batch : Batch}

theorem hear_single {e : Event} {known' : Replica} (heard : known.hear e = some known') :
    [e].foldlM hear known = some known' := by
  rw [List.foldlM_cons, heard]
  rfl

/-- A follower enters a batch that is created. -/
theorem hear_created (listed : batch.ids ≠ []) (opened : batch.state = .open)
    (fresh : known batch.nonce = none) :
    known.hear (.ofBatch "outgoing_batch_created" batch) = some (known.enter batch) := by
  have told := Event.told?_ofBatch_of_open "outgoing_batch_created" listed opened
  have kind : BatchState.reported? (Event.ofBatch "outgoing_batch_created" batch).kind =
    some .open := rfl
  simp only [hear, told, kind, bind, Option.bind, if_pos fresh]

/-- A follower closes a batch whose end is reported. -/
theorem hear_ended (kind : String) (state : BatchState)
    (reported : BatchState.reported? kind = some state) (ends : state ≠ .open)
    (listed : batch.ids ≠ []) (opened : batch.state = .open)
    (recorded : known batch.nonce = some batch) :
    known.hear (.ofBatch kind batch) = some (known.enter { batch with state }) := by
  have told := Event.told?_ofBatch_of_open kind listed opened
  have kind : BatchState.reported? (Event.ofBatch kind batch).kind = some state := reported
  cases state with
  | «open» => exact absurd rfl ends
  | _ => simp only [hear, told, kind, bind, Option.bind, if_pos recorded]

end Replica

/-! ## One call -/

variable {b b' : Book} {bs : List Batch} {c : Call} {r : Response} {ds : List Deed} {s : Store}

/-- Deeds on no batch leave the batches alone. -/
def Deed.LeavesBatches : Deed → Prop
  | .gather _ => False
  | .disband _ _ => False
  | .settle _ _ => False
  | _ => True

theorem Move.batch_of_leaving {d : Deed} (m : Move b d b') (leaves : d.LeavesBatches) :
    b'.batch = b.batch := by
  cases m with
  | gather => exact leaves.elim
  | disband => exact leaves.elim
  | settle => exact leaves.elim
  | _ => rfl

/-- A follower closes the batches that time out, one after the other. -/
theorem Moves.heard_timedOut (m : Moves b (bs.map (.disband · .timedOut)) b') (sound : b.Sound) :
    (bs.map (Event.ofBatch "outgoing_batch_timed_out")).foldlM Replica.hear b.batch =
      some b'.batch := by
  induction bs generalizing b with
  | nil =>
      cases m
      rfl
  | cons batch bs ih =>
      cases m with
      | next first rest =>
      have after := sound.move first
      cases first with
      | disband recorded opened _ =>
          have heard := Replica.hear_ended "outgoing_batch_timed_out" .timedOut rfl
            (by decide) (sound.ids_ne_nil recorded) opened recorded
          rw [List.map_cons, List.foldlM_cons, heard]
          exact ih rest after

/-- The events of a successful call lead a follower from the batches before it to those after. -/
theorem Outcome.heard (h : Outcome b c r ds) (moves : Moves b ds b') (sound : b.Sound) :
    r.events.foldlM Replica.hear b.batch = some b'.batch := by
  cases h with
  | requestBatch _ _ _ gathers _ =>
      have after := sound.moves moves
      cases moves.of_single with
      | gather =>
          have listed := after.ids_ne_nil (update_eq_some.mpr (.inl ⟨rfl, rfl⟩))
          have heard := Replica.hear_created listed gathers.opened (gathers.new_batch sound.filed)
          exact Replica.hear_single heard
  | cancelBatch _ _ =>
      cases moves.of_single with
      | disband recorded opened _ =>
          have heard := Replica.hear_ended "outgoing_batch_cancelled" .cancelled rfl
            (by decide) (sound.ids_ne_nil recorded) opened recorded
          exact Replica.hear_single heard
  | batchExecuted =>
      cases moves.of_single with
      | settle recorded opened _ =>
          have heard := Replica.hear_ended "outgoing_batch_executed" .executed rfl
            (by decide) (sound.ids_ne_nil recorded) opened recorded
          exact Replica.hear_single heard
  | endBlock _ _ =>
      cases moves with
      | next first rest =>
      have after := sound.move first
      cases first with
      | observe => exact rest.heard_timedOut after
  | _ =>
      refine congrArg some (Eq.symm ?_)
      exact moves.preserve Book.batch Move.batch_of_leaving (by simp [Deed.LeavesBatches])

/-- The events of every call do. -/
theorem Reachable.heard (h : Reachable s) (c : Call) :
    (Chain.Step.events ⟨c, (c.run s).1⟩).foldlM Replica.hear s.book.batch =
      some (c.run s).2.book.batch := by
  refine h.of_outcome (P := fun b' answer => (Chain.Step.events ⟨c, answer⟩).foldlM Replica.hear
    s.book.batch = some b'.batch) c ?_ ?_
  · exact fun _ _ => rfl
  · exact fun _ _ _ outcome moves => outcome.heard moves h.sound

/-- A store is replicated by the batches of its book. -/
theorem Store.Keeps.replicatedBy (h : s.Keeps b) : s.ReplicatedBy b.batch where
  batch := h.batch?
  row _ _ head := Store.batch_row_iff h head

/-! ## Runs -/

namespace Chain

variable {opening : Response} {past : List Moment}

theorem published_append (m : Moment) :
    published opening (past ++ [m]) = published opening past ++ m.events := by
  simp [published]

/-- A follower knows the batches of the book. -/
theorem Run.heard (h : Run opening past s) :
    Replica.ofEvents (published opening past) = some s.book.batch := by
  induction h with
  | founded done =>
      obtain ⟨c, _, _, _, _, silent, keeps⟩ := Bridge.run_setUp_configures done
      rw [keeps.book_eq, published, silent]
      rfl
  | call c earlier ih =>
      rw [published_append, Replica.ofEvents, List.foldlM_append]
      rw [Replica.ofEvents] at ih
      rw [ih]
      exact earlier.reachable.heard c

/-- Along every run the events that were published so far replicate the batches of the store. -/
theorem Run.replicated (h : Run opening past s) :
    ∃ known, Replica.ofEvents (published opening past) = some known ∧ s.ReplicatedBy known :=
  ⟨_, h.heard, h.reachable.keeps.replicatedBy⟩

/-- After the first request a follower knows the first batch, which is open. -/
theorem replicated_after_firstRequest : ∃ opening known,
    Run opening (firstMomentsOf plainStore) (requested plainStore) ∧
      Replica.ofEvents (published opening (firstMomentsOf plainStore)) = some known ∧
        (requested plainStore).ReplicatedBy known ∧ ∃ c, known 1 = some (firstBatch c) := by
  obtain ⟨opening, done⟩ := founded_plainStore
  obtain ⟨c, bounds, active, _, keeps⟩ := Bridge.run_setUp_ok done
  have run := (Run.founded done).requested
  obtain ⟨known, heard, replicated⟩ := run.replicated
  have gathered := (keeps_requested bounds active (.founded founded_plainStore) keeps).2
  have first : Except.ok (known 1) = .ok (some (firstBatch c)) :=
    (replicated.batch 1).symm.trans (gathered.batch? 1)
  exact ⟨opening, known, run, heard, replicated, c, Except.ok.inj first⟩

end Chain

end BridgePool
