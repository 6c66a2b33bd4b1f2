import BridgePool.Proofs.Chain

/-!
# Batch membership is exact and exclusive

In every reachable store a transfer is in a batch exactly when that batch is open and lists it;
what an open batch lists is kept, in listing order, and what an executed batch lists is gone for
good (`Reachable.membershipExact`). Batches that were cancelled or timed out keep their lists, and
say nothing about the transfers any more.
-/

namespace BridgePool

variable {s : Store} {b : Book}

namespace Store

/-- What the states of transfers and the lists of batches say of each other. -/
structure MembershipExact (s : Store) : Prop where
  /-- A transfer is in the open batch that lists it. -/
  carried_iff : ∀ id t n, s.transfer? id = .ok (some t) →
    (t.state = .inBatch n ↔
      ∃ batch, s.batch? n = .ok (some batch) ∧ batch.state = .open ∧ id ∈ batch.ids)
  /-- A batch lists between one and a thousand different transfers. -/
  sized : ∀ n batch, s.batch? n = .ok (some batch) →
    1 ≤ batch.ids.length ∧ batch.ids.length ≤ 1000 ∧ batch.ids.Nodup
  /-- The ids that it lists were given out. -/
  given_out : ∀ n batch, s.batch? n = .ok (some batch) → ∃ next, s.nextId = .ok next ∧
    ∀ id ∈ batch.ids, 1 ≤ id ∧ id < next
  /-- What an open batch lists is kept, and is of its contract. -/
  open_kept : ∀ n batch, s.batch? n = .ok (some batch) → batch.state = .open →
    ∀ id ∈ batch.ids, ∃ t, s.transfer? id = .ok (some t) ∧
      t.token.contract.raw = batch.contract.raw
  /-- An open batch lists by descending fee, and among equal fees by descending id. -/
  open_ordered : ∀ n batch, s.batch? n = .ok (some batch) → batch.state = .open →
    batch.ids.Pairwise fun i j => ∀ t u, s.transfer? i = .ok (some t) →
      s.transfer? j = .ok (some u) →
      u.fee.amount.val < t.fee.amount.val ∨ u.fee.amount.val = t.fee.amount.val ∧ j < i
  /-- What an executed batch lists is gone. -/
  executed_gone : ∀ n batch, s.batch? n = .ok (some batch) → batch.state = .executed →
    ∀ id ∈ batch.ids, s.transfer? id = .ok none
  /-- Of the open and the executed batches, one at most lists a transfer. -/
  listed_once : ∀ m n batch other id, s.batch? m = .ok (some batch) →
    s.batch? n = .ok (some other) → batch.state = .open ∨ batch.state = .executed →
    other.state = .open ∨ other.state = .executed → id ∈ batch.ids → id ∈ other.ids → m = n

end Store

/-- Of the open and the executed batches of a sound book, one at most lists a transfer. -/
theorem Book.Grouped.listed_once (h : b.Grouped) {m n id : UInt64} {batch other : Batch}
    (recorded : b.batch m = some batch) (recorded' : b.batch n = some other)
    (holds : batch.state = .open ∨ batch.state = .executed)
    (holds' : other.state = .open ∨ other.state = .executed) (listed : id ∈ batch.ids)
    (listed' : id ∈ other.ids) : m = n := by
  -- an open batch lists only what is kept, an executed one only what is gone
  have apart {m n} {batch other : Batch} (recorded : b.batch m = some batch)
      (opened : batch.state = .open) (recorded' : b.batch n = some other)
      (executed : other.state = .executed) (listed : id ∈ batch.ids) : id ∉ other.ids := by
    intro listed'
    obtain ⟨t, kept, _⟩ := h.open_kept recorded opened listed
    rw [h.executed_gone recorded' executed listed'] at kept
    cases kept
  rcases holds with opened | executed <;> rcases holds' with opened' | executed'
  · exact h.open_once recorded' opened' recorded opened listed' listed
  · exact absurd listed' (apart recorded opened recorded' executed' listed)
  · exact absurd listed (apart recorded' opened' recorded executed listed')
  · exact h.executed_once recorded executed recorded' executed' listed listed'

/-- The positions of one contract's records are in order by their fees and ids. -/
theorem Book.Sound.open_descending (h : b.Sound) {n : UInt64} {batch : Batch}
    (recorded : b.batch n = some batch) (opened : batch.state = .open) :
    batch.ids.Pairwise fun i j => ∀ t u, b.transfer i = some t → b.transfer j = some u →
      u.fee.amount.val < t.fee.amount.val ∨ u.fee.amount.val = t.fee.amount.val ∧ j < i := by
  have contract {id t} (listed : id ∈ batch.ids) (kept : b.transfer id = some t) :
      t.fee.contract.raw = batch.contract.raw := by
    obtain ⟨u, found, own⟩ := h.open_kept recorded opened listed
    rw [kept, Option.some.injEq] at found
    rw [h.spelled kept, found, own]
  apply (h.open_ordered recorded opened).imp_of_mem
  intro i j memI memJ before t u keptI keptJ
  rcases before t u keptI keptJ with lower | ⟨_, descending⟩
  · have same : t.position.contract = u.position.contract :=
      (contract memI keptI).trans (contract memJ keptJ).symm
    rw [same] at lower
    exact absurd lower (List.lt_irrefl _)
  · rw [← h.transfer_id keptI, ← h.transfer_id keptJ]
    exact descending

theorem Store.Keeps.membership_exact (h : s.Keeps b) (sound : b.Sound) : s.MembershipExact := by
  constructor <;> simp only [h.transfer?, h.batch?, h.nextId, Except.ok.injEq, exists_eq_left']
  · intro id t n kept
    exact sound.carried_iff kept
  · intro n batch recorded
    exact sound.sized recorded
  · intro n batch recorded id listed
    exact sound.ids_fresh recorded listed
  · intro n batch recorded opened id listed
    exact sound.open_kept recorded opened listed
  · intro n batch recorded opened
    exact sound.open_descending recorded opened
  · intro n batch recorded executed id listed
    exact sound.executed_gone recorded executed listed
  · intro m n batch other id recorded recorded' holds holds' listed listed'
    exact sound.listed_once recorded recorded' holds holds' listed listed'

/-- Batch membership is exact and exclusive in every reachable store. -/
theorem Reachable.membershipExact (h : Reachable s) : s.MembershipExact :=
  h.keeps.membership_exact h.sound

/-! ## A first batch -/

namespace Chain

/-- The far chain is at its seventh block. -/
def firstHeight : Call :=
  .hostEvent (.endBlock 7)

/-- Someone asks for a batch of the token of the first send. -/
def firstRequest : Call :=
  .command ⟨5, ⟨0⟩⟩ ⟨"relayer", []⟩ (.requestBatch Address.zero.spelling)

/-- The batch of the first send. -/
def firstBatch (c : Config) : Batch where
  nonce := 1
  timeout := Bridge.saturatingAdd 7 c.timeoutBlocks
  ids := [1]
  contract := .zero
  block := 5
  state := .open

/-- The book after the first send, at the seventh block. -/
def firstBook (c : Config) : Book :=
  { (Book.founded c).accept firstTransfer firstSum with height := some 7 }

/-- The first send is all that is listed. -/
theorem gathers_firstBatch {c : Config} (bounds : c.InBounds) :
    (firstBook c).Gathers Address.zero.raw c.batchSize.toNat (firstBatch c) where
  free := rfl
  ids := by
    have positive : 1 ≤ c.batchSize.toNat :=
      Nat.pos_of_ne_zero fun zero => bounds.batchSize_pos (UInt32.toNat_inj.mp zero)
    refine ⟨[firstTransfer.position], ⟨List.pairwise_singleton _ _, fun p => ?_⟩, ?_⟩
    · have listed : (firstBook c).listed = insert firstTransfer.position ∅ := rfl
      rw [List.mem_singleton, listed, insert_empty_eq, Set.mem_singleton_iff]
      constructor
      · rintro rfl
        exact ⟨rfl, rfl⟩
      · exact And.left
    · rw [List.take_of_length_le positive]
      rfl
  spelled := ⟨firstTransfer, rfl, rfl⟩
  own_nonce := rfl
  room := show (0 : UInt64).toNat + 1 < UInt64.size by decide
  opened := rfl

/-- The seventh block comes, and times nothing out. -/
theorem keeps_firstHeight {c : Config} (reached : Reachable s)
    (keeps : s.Keeps ((Book.founded c).accept firstTransfer firstSum)) :
    (firstHeight.run s).2.Keeps (firstBook c) := by
  have sound := reached.sound
  rw [keeps.book_eq] at sound
  obtain ⟨now, bs, s', b, rises, expires, done, keeps', moves⟩ := Bridge.run_endBlock keeps sound 7
  have ran : firstHeight.run s = (.ok _, s') := Operation.run_atomic_eq_ok.mpr done
  have nothing : bs = [] := by
    apply List.eq_nil_iff_forall_not_mem.mpr
    intro batch mem
    have recorded := (expires.mem_iff.mp mem).1
    cases recorded
  subst nothing
  obtain rfl : now = 7 := rises.trans (show max (0 : UInt64) 7 = 7 by decide)
  cases moves.of_single with
  | observe => exact ran ▸ keeps'

theorem reachable_firstSend : Reachable (firstSend.run plainStore).2 :=
  .call _ (.founded founded_plainStore)

/-- The store after the first send and the seventh block. -/
theorem exists_firstHeight : ∃ c, c.InBounds ∧ c.paused = false ∧
    (firstHeight.run (firstSend.run plainStore).2).2.Keeps (firstBook c) := by
  obtain ⟨c, _, bounds, active, _, _, keeps⟩ := run_firstSend
  exact ⟨c, bounds, active, keeps_firstHeight reachable_firstSend keeps⟩

/-- Whoever asks for a batch then, the first send gets into the first batch. -/
theorem run_request {c : Config} (bounds : c.InBounds) (active : c.paused = false)
    (reached : Reachable s) (keeps : s.Keeps (firstBook c)) (caller : Caller) : ∃ r s',
    (Call.command ⟨5, ⟨0⟩⟩ caller (.requestBatch Address.zero.spelling)).run s = (.ok r, s') ∧
      s'.Keeps ((firstBook c).gather (firstBatch c)) := by
  have sound := reached.sound
  rw [keeps.book_eq] at sound
  obtain ⟨s', gathered⟩ := Batch.exists_keeps_gather keeps sound.filed (gathers_firstBatch bounds)
  have done : (Bridge.requestBatch ⟨5, ⟨0⟩⟩ Address.zero.spelling).run s = (.ok _, s') :=
    (Bridge.run_requestBatch_eq_ok keeps sound).mpr
      ⟨c, .zero, firstBatch c, rfl, active, Address.parse_spelling _,
        show (7 : UInt64) ≠ 0 by decide, gathers_firstBatch bounds, rfl, rfl, rfl, gathered⟩
  exact ⟨_, s', Operation.run_atomic_eq_ok.mpr done, gathered⟩

/-- The store after the first send, the first height and the first request. -/
def requested (s : Store) : Store :=
  (firstRequest.run (firstHeight.run (firstSend.run s).2).2).2

/-- On a bridge that was just set up the first send gets into the first batch. -/
theorem keeps_requested {c : Config} (bounds : c.InBounds) (active : c.paused = false)
    (reached : Reachable s) (keeps : s.Keeps (.founded c)) :
    Reachable (requested s) ∧ (requested s).Keeps ((firstBook c).gather (firstBatch c)) := by
  obtain ⟨_, _, _, sent⟩ := run_firstSend_founded active keeps
  have reached := reached.call firstSend
  have observed := keeps_firstHeight reached sent
  have reached := reached.call firstHeight
  obtain ⟨r, s', ran, gathered⟩ := run_request bounds active reached observed ⟨"relayer", []⟩
  have last : requested s = s' := congrArg Prod.snd ran
  exact ⟨reached.call firstRequest, last ▸ gathered⟩

/-- The first send gets into the first batch. -/
theorem run_firstRequest : ∃ c s, Reachable s ∧ s.Keeps ((firstBook c).gather (firstBatch c)) := by
  obtain ⟨r, done⟩ := founded_plainStore
  obtain ⟨c, bounds, active, _, keeps⟩ := Bridge.run_setUp_ok done
  exact ⟨c, requested plainStore,
    keeps_requested bounds active (.founded founded_plainStore) keeps⟩

end Chain

/-- After the first request, the first send is in the first batch, which is open and lists it. -/
theorem membershipExact_after_firstRequest :
    ∃ s : Store, Reachable s ∧ s.MembershipExact ∧ ∃ t batch, s.transfer? 1 = .ok (some t) ∧
      t.state = .inBatch 1 ∧ s.batch? 1 = .ok (some batch) ∧ batch.state = .open ∧
        1 ∈ batch.ids := by
  obtain ⟨c, s, reached, keeps⟩ := Chain.run_firstRequest
  have membership := reached.membershipExact
  have recorded : s.batch? 1 = .ok (some (Chain.firstBatch c)) := keeps.batch? 1
  obtain ⟨t, kept, _⟩ := membership.open_kept 1 _ recorded rfl 1 List.mem_cons_self
  have carried := (membership.carried_iff 1 t 1 kept).mpr
    ⟨_, recorded, rfl, List.mem_cons_self⟩
  exact ⟨s, reached, membership, t, _, kept, carried, recorded, rfl, List.mem_cons_self⟩

end BridgePool
