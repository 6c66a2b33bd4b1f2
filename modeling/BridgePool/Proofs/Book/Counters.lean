import BridgePool.Proofs.Book.Moves
import BridgePool.Proofs.Bridge.Outcome

/-!
# Counters and batch records of a book

An accepted transfer counts the ids on and a new batch counts the nonces on; no other deed touches
the counters (`Moves.next_toNat`, `Moves.last_toNat`). A batch that is recorded stays recorded:
all of it but its state is what it was, and a state that is not open stays, too (`Batch.Becomes`,
`Moves.becomes`).
-/

namespace BridgePool

open Chain

variable {b b' : Book} {d : Deed} {ds : List Deed} {c : Call} {r : Response} {n : UInt64}
  {first second third batch : Batch}

/-! ## What becomes of a batch -/

/-- What a batch can become: everything but its state stays, and a state that is not open stays,
too. -/
structure Batch.Becomes (first second : Batch) : Prop where
  same : second = { first with state := second.state }
  final : first.state ≠ .open → second.state = first.state

namespace Batch.Becomes

theorem refl (batch : Batch) : batch.Becomes batch :=
  ⟨rfl, fun _ => rfl⟩

theorem trans (h : first.Becomes second) (h' : second.Becomes third) : first.Becomes third where
  same := by rw [h'.same, h.same]
  final ended := by
    have stays := h.final ended
    rw [h'.final (stays ▸ ended), stays]

/-- An open batch can move to any state. -/
theorem of_open (opened : batch.state = .open) (state : BatchState) :
    batch.Becomes { batch with state } :=
  ⟨rfl, fun ended => absurd opened ended⟩

/-- A state that changes was open, and is terminal from then on. -/
theorem ends (h : first.Becomes second) (changes : second.state ≠ first.state) :
    first.state = .open ∧ second.state ≠ .open := by
  have opened : first.state = .open := by
    by_contra ended
    exact changes (h.final ended)
  exact ⟨opened, opened ▸ changes⟩

end Batch.Becomes

/-- Of the batches of which one is closed, each is still there. -/
theorem Book.becomes_closing {state : BatchState} (recorded : b.batch batch.nonce = some batch)
    (opened : batch.state = .open) (found : b.batch n = some first) :
    ∃ second, b.closing batch state n = some second ∧ first.Becomes second := by
  by_cases own : n = batch.nonce
  · subst own
    rw [recorded, Option.some.injEq] at found
    subst found
    exact ⟨_, Function.update_self _ _ _, .of_open opened state⟩
  · exact ⟨first, (Function.update_of_ne own _ _).trans found, .refl first⟩

theorem Move.becomes (m : Move b d b') (sound : b.Sound) (found : b.batch n = some first) :
    ∃ second, b'.batch n = some second ∧ first.Becomes second := by
  cases m with
  | gather _ _ _ gathers _ =>
      have old := gathers.old_nonce sound.filed found
      exact ⟨first, (Function.update_of_ne old _ _).trans found, .refl first⟩
  | disband recorded opened _ => exact Book.becomes_closing recorded opened found
  | settle recorded opened _ => exact Book.becomes_closing recorded opened found
  | _ => exact ⟨first, found, .refl first⟩

theorem Moves.becomes (m : Moves b ds b') (sound : b.Sound) (found : b.batch n = some first) :
    ∃ second, b'.batch n = some second ∧ first.Becomes second := by
  induction m generalizing first with
  | done => exact ⟨first, found, .refl first⟩
  | next now _ ih =>
      obtain ⟨second, found, becomes⟩ := now.becomes sound found
      obtain ⟨third, found, becomes'⟩ := ih (sound.move now) found
      exact ⟨third, found, becomes.trans becomes'⟩

/-! ## What is counted -/

/-- Whether a deed takes a transfer into the pool. -/
def Deed.accepts : Deed → Bool
  | .accept _ => true
  | _ => false

/-- Whether a deed cuts a batch. -/
def Deed.gathers : Deed → Bool
  | .gather _ => true
  | _ => false

/-- Whether a step is a send that succeeded. -/
def Chain.Step.sends (e : Step) : Bool :=
  match e.call, e.answer with
  | .command _ _ (.send _ _ _), .ok _ => true
  | _, _ => false

/-- A step is a send when its call is one and was answered. -/
theorem Chain.Step.sends_iff {e : Step} : e.sends ↔ ∃ env caller destination amount fee r,
    e.call = .command env caller (.send destination amount fee) ∧ e.answer = .ok r := by
  constructor
  · intro sends
    unfold Step.sends at sends
    split at sends
    next call answer => exact ⟨_, _, _, _, _, _, call, answer⟩
    next => cases sends
  · rintro ⟨_, _, _, _, _, _, call, answer⟩
    rw [Step.sends, call, answer]

/-- Whether a step is a request for a batch that succeeded. -/
def Chain.Step.requests (e : Step) : Bool :=
  match e.call, e.answer with
  | .command _ _ (.requestBatch _), .ok _ => true
  | _, _ => false

theorem Move.next_toNat (m : Move b d b') :
    b'.next.toNat = b.next.toNat + if d.accepts then 1 else 0 := by
  cases m with
  | accept own_id room _ _ _ _ => exact own_id ▸ Book.next_accept room
  | _ => rfl

theorem Move.last_toNat (m : Move b d b') :
    b'.last.toNat = b.last.toNat + if d.gathers then 1 else 0 := by
  cases m with
  | @gather batch _ _ _ _ _ gathers _ =>
      show batch.nonce.toNat = b.last.toNat + 1
      rw [gathers.own_nonce, toNat_succ gathers.room]
  | _ => rfl

theorem Moves.next_toNat (m : Moves b ds b') :
    b'.next.toNat = b.next.toNat + ds.countP Deed.accepts := by
  induction m with
  | done => rfl
  | next first _ ih =>
      rw [ih, first.next_toNat, List.countP_cons]
      omega

theorem Moves.last_toNat (m : Moves b ds b') :
    b'.last.toNat = b.last.toNat + ds.countP Deed.gathers := by
  induction m with
  | done => rfl
  | next first _ ih =>
      rw [ih, first.last_toNat, List.countP_cons]
      omega

/-- The deeds of a call accept one transfer when it is a send, and none otherwise. -/
theorem Outcome.countP_accepts (h : Outcome b c r ds) :
    ds.countP Deed.accepts = if Step.sends ⟨c, .ok r⟩ then 1 else 0 := by
  cases h with
  | endBlock => simp [Step.sends, Deed.accepts]
  | _ => rfl

/-- The deeds of a call cut one batch when it is a request for one, and none otherwise. -/
theorem Outcome.countP_gathers (h : Outcome b c r ds) :
    ds.countP Deed.gathers = if Step.requests ⟨c, .ok r⟩ then 1 else 0 := by
  cases h with
  | endBlock => simp [Step.requests, Deed.gathers]
  | _ => rfl

end BridgePool
