import BridgePool.Proofs.Book.Commute
import BridgePool.Proofs.Lifecycle
import BridgePool.Proofs.Recovery
import BridgePool.Proofs.Run

/-!
# Settlements in any order

Calls that settle different things do not get in each other's way: if each of them would succeed,
then they succeed in every order, with the same answers, and lead to one store, byte for byte
(`Reachable.settlesInAnyOrder`). Two of them are the case of `Move.commute`; a list of them follows
by induction on how it is permuted.
-/

namespace BridgePool

open Chain Operation

/-- What a call settles, if it is one that settles something. -/
def Call.settles? : Call → Option Pending
  | .command _ _ (.cancelSend id) => some (.send id)
  | .command _ _ (.cancelBatch nonce) => some (.batch nonce)
  | .hostEvent (.batchExecuted nonce) => some (.batch nonce)
  | _ => none

/-- Each of the calls settles something and would succeed, and no two settle the same. -/
structure Store.Settles (s : Store) (cs : List Call) : Prop where
  settle : ∀ c ∈ cs, c.settles?.isSome
  succeed : ∀ c ∈ cs, c.Succeeds s
  distinct : (cs.map Call.settles?).Nodup

/-- The order of settlements does not matter. -/
structure Store.SettlesInAnyOrder (s : Store) : Prop where
  /-- Two settlements succeed in either order, with the same answers, and lead to one store. -/
  commute : ∀ (c d : Call) (i j : Pending), c.settles? = some i → d.settles? = some j → i ≠ j →
    ∀ r q s₁ s₂, c.run s = (.ok r, s₁) → d.run s = (.ok q, s₂) →
      ∃ s₃, d.run s₁ = (.ok q, s₃) ∧ c.run s₂ = (.ok r, s₃)
  /-- Of any number of settlements, each answers what it would answer alone. -/
  answers : ∀ cs, s.Settles cs → (play s cs).1 = cs.map fun c => ⟨c, (c.run s).1⟩
  /-- They lead to one store, whatever their order. -/
  any_order : ∀ cs cs', s.Settles cs → cs.Perm cs' → (play s cs').2 = (play s cs).2

variable {s s₁ s₂ : Store} {b : Book} {c d : Call} {r q : Response} {ds : List Deed}
  {cs cs' : List Call} {i j : Pending}

/-! ## Two settlements -/

theorem Call.inLifecycle_of_settles (settles : c.settles? = some i) : c.InLifecycle := by
  unfold settles? at settles
  split at settles
  next => exact .cancelSend _ _ _
  next => exact .cancelBatch _ _ _
  next => exact .hostEvent _
  next => cases settles

/-- A call that settles something does one deed, which settles the same. -/
theorem Outcome.settles (outcome : Outcome b c r ds) (settles : c.settles? = some i) :
    ∃ d, ds = [d] ∧ d.settles? = some i := by
  cases outcome with
  | cancelSend => exact ⟨_, rfl, settles⟩
  | cancelBatch => exact ⟨_, rfl, settles⟩
  | batchExecuted => exact ⟨_, rfl, settles⟩
  | _ => cases settles

/-- A settlement needs the same of every book with the same administrator. -/
theorem Call.sees_of_settles {b' : Book} (settles : c.settles? = some i)
    (config : b'.config = b.config) : c.Sees b b' where
  admin := by rw [config]
  block height same := by
    subst same
    cases settles

/-- Two settlements of different things lead to one store, in either order. -/
theorem Reachable.commute (h : Reachable s) (settles : c.settles? = some i)
    (settles' : d.settles? = some j) (apart : i ≠ j) (ran : c.run s = (.ok r, s₁))
    (ran' : d.run s = (.ok q, s₂)) :
    ∃ s₃, d.run s₁ = (.ok q, s₃) ∧ c.run s₂ = (.ok r, s₃) := by
  obtain ⟨_, b₁, outcome, moves, keeps₁⟩ := Call.run_ok h.keeps h.sound ran
  obtain ⟨_, b₂, outcome', moves', keeps₂⟩ := Call.run_ok h.keeps h.sound ran'
  obtain ⟨first, rfl, target⟩ := outcome.settles settles
  obtain ⟨second, rfl, target'⟩ := outcome'.settles settles'
  have m := moves.of_single
  have m' := moves'.of_single
  obtain ⟨b₃, n, n'⟩ := Move.commute h.sound m m' target target' apart
  -- each call still comes to its outcome after the other one
  have later := outcome'.of_sees (Call.inLifecycle_of_settles settles')
    (Call.sees_of_settles settles' (m.config_eq_of_settles target))
  have later' := outcome.of_sees (Call.inLifecycle_of_settles settles)
    (Call.sees_of_settles settles (m'.config_eq_of_settles target'))
  obtain ⟨s₃, done, keeps₃⟩ := (Call.inLifecycle_of_settles settles').run_of_outcome keeps₁
    (h.sound.move m) later n.single
  obtain ⟨s₄, done', keeps₄⟩ := (Call.inLifecycle_of_settles settles).run_of_outcome keeps₂
    (h.sound.move m') later' n'.single
  obtain rfl := keeps₃.eq_iff.mpr keeps₄
  exact ⟨_, done, done'⟩

/-! ## Any number of settlements -/

namespace Store.Settles

/-- After one of the settlements, the others would succeed with the same answers. -/
theorem tail (all : s.Settles (c :: cs)) (h : Reachable s) :
    (c.run s).2.Settles cs ∧ ∀ d ∈ cs, (d.run (c.run s).2).1 = (d.run s).1 := by
  obtain ⟨settles, others⟩ := List.forall_mem_cons.mp all.settle
  obtain ⟨⟨r, answer⟩, succeed⟩ := List.forall_mem_cons.mp all.succeed
  obtain ⟨fresh, distinct⟩ := List.nodup_cons.mp all.distinct
  obtain ⟨i, settles⟩ := Option.isSome_iff_exists.mp settles
  have alone : ∀ d ∈ cs, (d.run (c.run s).2).1 = (d.run s).1 := by
    intro d mem
    obtain ⟨j, settles'⟩ := Option.isSome_iff_exists.mp (others d mem)
    obtain ⟨q, answer'⟩ := succeed d mem
    have apart : i ≠ j := by
      rintro rfl
      exact fresh (List.mem_map.mpr ⟨d, mem, settles'.trans settles.symm⟩)
    obtain ⟨s₃, done, _⟩ :=
      h.commute settles settles' apart (Prod.ext answer rfl) (Prod.ext answer' rfl)
    rw [done, answer']
  refine ⟨⟨others, fun d mem => ?_, distinct⟩, alone⟩
  obtain ⟨q, answer'⟩ := succeed d mem
  exact ⟨q, (alone d mem).trans answer'⟩

theorem perm (all : s.Settles cs) (perm : cs.Perm cs') : s.Settles cs' where
  settle c mem := all.settle c (perm.mem_iff.mpr mem)
  succeed c mem := all.succeed c (perm.mem_iff.mpr mem)
  distinct := (perm.map Call.settles?).nodup_iff.mp all.distinct

theorem answers (all : s.Settles cs) (h : Reachable s) :
    (play s cs).1 = cs.map fun c => ⟨c, (c.run s).1⟩ := by
  induction cs generalizing s with
  | nil => rfl
  | cons c rest ih =>
      obtain ⟨later, alone⟩ := all.tail h
      rw [play_cons, ih later (h.call c), List.map_cons]
      exact congrArg (_ :: ·) (List.map_congr_left fun d mem => by rw [alone d mem])

theorem any_order (all : s.Settles cs) (h : Reachable s) (order : cs.Perm cs') :
    (play s cs').2 = (play s cs).2 := by
  induction order generalizing s with
  | nil => rfl
  | cons c _ ih => exact ih (all.tail h).1 (h.call c)
  | swap c d rest =>
      obtain ⟨⟨i, settles⟩, ⟨j, settles'⟩⟩ :
          (∃ i, c.settles? = some i) ∧ ∃ j, d.settles? = some j :=
        ⟨Option.isSome_iff_exists.mp (all.settle c (by simp)),
          Option.isSome_iff_exists.mp (all.settle d (by simp))⟩
      obtain ⟨⟨r, answer⟩, ⟨q, answer'⟩⟩ : c.Succeeds s ∧ d.Succeeds s :=
        ⟨all.succeed c (by simp), all.succeed d (by simp)⟩
      have apart : i ≠ j := by
        rintro rfl
        have distinct := (List.nodup_cons.mp all.distinct).1
        exact distinct (by simp [settles, settles'])
      obtain ⟨s₃, done, done'⟩ :=
        h.commute settles settles' apart (Prod.ext answer rfl) (Prod.ext answer' rfl)
      rw [play_cons, play_cons, play_cons, play_cons, done, done']
  | trans first _ ih ih' => exact (ih' (all.perm first) h).trans (ih all h)

end Store.Settles

/-- In every reachable store, settlements of different things can be done in any order. -/
theorem Reachable.settlesInAnyOrder (h : Reachable s) : s.SettlesInAnyOrder where
  commute _ _ _ _ settles settles' apart _ _ _ _ ran ran' :=
    h.commute settles settles' apart ran ran'
  answers _ all := all.answers h
  any_order _ _ all order := all.any_order h order

/-! ## A batch and a second send of one denom -/

namespace Chain

/-- The first batch is executed, and the second send is cancelled. -/
def bothSettlements : List Call :=
  [.hostEvent (.batchExecuted 1), .command ⟨6, ⟨0⟩⟩ ⟨"sender", []⟩ (.cancelSend 2)]

/-- After the first request, a second send of the same token succeeds. -/
theorem keeps_secondSend {c : Config} (active : c.paused = false)
    (keeps : s.Keeps ((firstBook c).gather (firstBatch c))) : ∃ sum : CoinAmount,
    (firstSend.run s).2.Keeps
      (((firstBook c).gather (firstBatch c)).accept (plainTransfer .zero 2) sum) := by
  have held : ((firstBook c).gather (firstBatch c)).locked.held (Denom.ofContract .zero) =
      firstSum.val :=
    (Holdings.held_update _ _ _ _).trans (if_pos rfl)
  let sum : CoinAmount := ⟨firstSum.val + firstSum.val, by decide⟩
  have credited : sum.val =
      ((firstBook c).gather (firstBatch c)).locked.held (Denom.ofContract .zero) + firstSum.val := by
    rw [held]
  obtain ⟨r, s', ran, _, kept⟩ := run_plainSend keeps .zero ⟨c, rfl, active⟩
    (show (2 : UInt64).toNat + 1 < UInt64.size by decide) credited ⟨1, ⟨0⟩⟩
  have ran : firstSend.run s = (.ok r, s') := ran
  exact ⟨sum, ran ▸ kept⟩

/-- The batch can be executed and the second send cancelled in either order, though the ledger has
one row for both. -/
theorem settlesInAnyOrder_after_secondSend : ∃ s, Reachable s ∧ s.SettlesInAnyOrder ∧
    s.Settles bothSettlements ∧
      (play s bothSettlements.reverse).2 = (play s bothSettlements).2 := by
  obtain ⟨reached, keeps⟩ := keeps_requested plainConfig_inBounds rfl
    (.founded founded_plainStore) keeps_plainStore
  obtain ⟨sum, keeps⟩ := keeps_secondSend rfl keeps
  have reached := reached.call firstSend
  generalize (firstSend.run (requested plainStore)).2 = s at keeps reached
  have sound := reached.sound
  rw [keeps.book_eq] at sound
  have opened : s.HasOpen 1 := ⟨_, keeps.batch? 1, rfl⟩
  have waits : s.HasWaiting 2 "sender" := ⟨_, keeps.transfer? 2, rfl, rfl⟩
  have bare : Caller.Bare ⟨"sender", []⟩ := fun _ mem => absurd mem List.not_mem_nil
  have settles : s.Settles bothSettlements := by
    refine ⟨by decide, ?_, by decide⟩
    simp only [bothSettlements, List.forall_mem_cons, List.not_mem_nil, false_implies,
      implies_true, and_true]
    exact ⟨keeps.batchExecuted_succeeds sound opened, keeps.cancelSend_succeeds sound bare waits _⟩
  have any := reached.settlesInAnyOrder
  exact ⟨s, reached, any, settles, any.any_order _ _ settles bothSettlements.reverse_perm.symm⟩

end Chain

end BridgePool
