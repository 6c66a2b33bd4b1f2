import BridgePool.Proofs.Settlement.Sums

/-!
# Sends are settled once

At any time of a run every accepted send is in exactly one of three states: its record is kept as
it was sent, one cancellation by its sender paid its coin back, or one execution of a batch that
listed it burned the coin. Nothing else asks the bank for anything, so that denom by denom what was
accepted is what is held, was paid back and was burned (`Run.settlement`).
-/

namespace BridgePool

open Chain

/-- What can have become of an accepted send. -/
inductive Fate where
  | kept
  | refunded
  | burned

/-- At the end of a run a send has this fate. -/
def Receipt.Has (p : Receipt) (run : List Moment) (s : Store) : Fate → Prop
  | .kept => ∃ t, s.transfer? p.id = .ok (some t) ∧ p.Records t
  | .refunded => ∃ m, run.filter (·.removes p.id) = [m] ∧ m.Refunds p
  | .burned => ∃ m, run.filter (·.removes p.id) = [m] ∧ m.Burns p

namespace Chain

/-- The receipt was issued by some step of the run. -/
def Issued (run : List Moment) (p : Receipt) : Prop :=
  ∃ m ∈ run, m.Issues p

/-- A moment takes out sends of the run, and asks the bank for exactly their coins: for the one
that is cancelled, or for those of a batch that is executed. -/
inductive Pays (run : List Moment) (m : Moment) : Prop
  | refund {p : Receipt} (issued : Issued run p) (removes : m.removes p.id = true)
      (refunds : m.Refunds p)
  | burn {n : UInt64} {batch : Batch} (call : m.call = .hostEvent (.batchExecuted n))
      (recorded : m.before.batch? n = .ok (some batch))
      (requests : m.messages.length = batch.ids.length)
      (burns : ∀ id ∈ batch.ids, ∃ p, p.id = id ∧ Issued run p ∧ m.removes id = true ∧ m.Burns p)

/-- How the sends of a run are settled. -/
structure Settlement (opening : Response) (run : List Moment) (s : Store) : Prop where
  /-- Every accepted send has one fate. -/
  settled : ∀ p, Issued run p → ∃! fate, p.Has run s fate
  /-- The set-up asks the bank for nothing. -/
  opening_silent : opening.messages = []
  /-- What the bank is asked for settles sends. -/
  pays : ∀ m ∈ run, m.messages ≠ [] → Pays run m
  /-- What was accepted is held, was paid back or was burned. -/
  conserved : ∀ denom, ∃ held, s.locked denom = .ok held ∧
    (run.map (·.accepted denom)).sum =
      held.val + (run.map (·.refunded denom)).sum + (run.map (·.burned denom)).sum

/-! ## What a run keeps -/

/-- What is known of an issued receipt: its send is there as it was sent, or it is gone and was
paid for once. -/
inductive Tracked (run : List Moment) (b : Book) (p : Receipt) : Prop
  | kept {t : Transfer} (sent : b.sent p.id = some t) (records : p.Records t)
      (untouched : run.filter (·.removes p.id) = [])
  | gone {m : Moment} (gone : b.sent p.id = none) (once : run.filter (·.removes p.id) = [m])
      (paid : m.Refunds p ∨ m.Burns p)

/-- The sends of a run and those of the book that it leads to. -/
structure Accounts (run : List Moment) (b : Book) : Prop where
  below : ∀ m ∈ run, ∀ id, m.removes id = true → id < b.next
  issued_below : ∀ p, Issued run p → p.id < b.next
  tracked : ∀ p, Issued run p → Tracked run b p
  receipt : ∀ id t, b.sent id = some t → ∃ p, Issued run p ∧ p.Records t
  pays : ∀ m ∈ run, m.messages ≠ [] → Pays run m
  balance : ∀ denom, (run.map (·.accepted denom)).sum =
    b.worth denom + (run.map (·.refunded denom)).sum + (run.map (·.burned denom)).sum

variable {run : List Moment} {b b' : Book} {p : Receipt} {m : Moment}

theorem not_issued_nil : ¬ Issued [] p := by
  simp [Issued]

theorem issued_append : Issued (run ++ [m]) p ↔ Issued run p ∨ m.Issues p := by
  simp [Issued, or_and_right, exists_or]

/-- What paid for sends of a run pays for sends of a longer one. -/
theorem Pays.append {next : Moment} (h : Pays run m) : Pays (run ++ [next]) m := by
  cases h with
  | refund issued removes refunds =>
      exact .refund (issued_append.mpr (.inl issued)) removes refunds
  | burn call recorded requests burns =>
      refine .burn call recorded requests fun id mem => ?_
      obtain ⟨p, own, issued, paid⟩ := burns id mem
      exact ⟨p, own, issued_append.mpr (.inl issued), paid⟩

theorem filter_append_removes (h : m.removes p.id = true) :
    (run ++ [m]).filter (·.removes p.id) = run.filter (·.removes p.id) ++ [m] := by
  rw [List.filter_append, List.filter_cons_of_pos h, List.filter_nil]

theorem filter_append_leaves (h : ¬ m.removes p.id = true) :
    (run ++ [m]).filter (·.removes p.id) = run.filter (·.removes p.id) := by
  rw [List.filter_append, List.filter_cons_of_neg h, List.filter_nil, List.append_nil]

section Step

variable (accounts : Accounts run b) (sound : b.Sound) (turn : Turn b b' m.toStep)
  (before : m.before.Keeps b) (after : m.after.Keeps b')

include accounts sound turn before after in
/-- A receipt that was issued earlier is tracked on. -/
theorem Tracked.step (issued : Issued run p) : Tracked (run ++ [m]) b' p := by
  have removes := m.removes_iff before after p.id
  cases accounts.tracked p issued with
  -- a kept send is left as it is, or this moment takes it out and pays for it
  | @kept t sent records untouched =>
      cases left : b'.sent p.id with
      | none =>
          have removed := removes.mpr ⟨sent ▸ rfl, left⟩
          refine .gone left ?_ (m.pays_of_gone turn sound before records sent left)
          rw [filter_append_removes removed, untouched, List.nil_append]
      | some u =>
          have stays : ¬ m.removes p.id = true := by
            rw [removes, left]
            simp
          have same := turn.stays_same sound.toRecorded sent (by simp [left])
          exact .kept same records ((filter_append_leaves stays).trans untouched)
  -- a send that is gone has no row to take out, so its moment stays the only one
  | gone gone once paid =>
      have stays : ¬ m.removes p.id = true := by
        rw [removes, gone]
        simp
      have away := turn.stays_gone (accounts.issued_below p issued) gone
      exact .gone away ((filter_append_leaves stays).trans once) paid

include accounts turn before after in
/-- A receipt that is issued now is tracked from now on. -/
theorem Tracked.new (issues : m.Issues p) : Tracked (run ++ [m]) b' p := by
  obtain ⟨next, _, t, sent, records⟩ := turn.of_issues issues
  have stays : ¬ m.removes p.id = true := by
    rw [m.removes_iff before after, sent]
    simp
  -- its id is the next one, and earlier moments took out lower ids only
  refine .kept sent records ?_
  rw [filter_append_leaves stays, List.filter_eq_nil_iff]
  intro e mem removes
  exact UInt64.lt_irrefl _ (next ▸ accounts.below e mem p.id removes)

include accounts sound turn before after in
/-- What the bank is asked for now settles sends of the run. -/
theorem Pays.step (asks : m.messages ≠ []) : Pays run m := by
  have removes (id : UInt64) := m.removes_iff before after id
  generalize step : m.toStep = e at turn asks
  cases turn with
  | accept _ _ silent => exact absurd silent asks
  -- the record that the command removes has a receipt, whose coin is paid back
  | @refund env caller t r kept own messages sent _ =>
      have there : b.sent t.id = some t.asSent := congrArg (Option.map _) kept
      obtain ⟨p, issued, records⟩ := accounts.receipt t.id _ there
      have same : t.id = p.id := records.id
      have refunds : Step.Refunds ⟨.command env caller (.cancelSend t.id), .ok r⟩ p :=
        Step.refunds records.of_asSent (sound.fits kept) own messages
      refine .refund issued ?_ (step ▸ refunds)
      rw [removes, ← same, there, sent, Function.update_self]
      exact ⟨rfl, rfl⟩
  -- one burn per listed id, each for the receipt of its record
  | @settle batch ts r recorded kept messages sent _ =>
      have requests : m.messages.length = batch.ids.length := by
        have lengths := congrArg List.length kept
        rw [List.length_map, List.length_map] at lengths
        rw [step, Step.messages_ok, messages, List.length_map, lengths]
      refine .burn (congrArg Step.call step) ((before.batch? _).trans (congrArg _ recorded))
        requests ?_
      intro id listed
      obtain ⟨t, _, found⟩ := Book.exists_record_of_mem kept listed
      have there : b.sent id = some t.asSent := congrArg (Option.map _) found
      obtain ⟨p, issued, records⟩ := accounts.receipt id _ there
      have burns := Moment.burns sound before step recorded kept messages listed found
        records.of_asSent
      have own : t.id = p.id := records.id
      refine ⟨p, own.symm.trans (sound.transfer_id found), issued, ?_, burns⟩
      rw [removes, there, sent, if_pos listed]
      exact ⟨rfl, rfl⟩
  | rest silent => exact absurd silent asks

include accounts sound turn before after in
theorem Accounts.step : Accounts (run ++ [m]) b' where
  below e mem id removes := by
    rcases List.mem_append.mp mem with old | new
    · exact UInt64.lt_of_lt_of_le (accounts.below e old id removes) turn.next_le
    · obtain rfl := List.mem_singleton.mp new
      obtain ⟨there, _⟩ := (e.removes_iff before after id).mp removes
      obtain ⟨t, found⟩ := Option.isSome_iff_exists.mp there
      obtain ⟨u, kept, _⟩ := Option.map_eq_some_iff.mp found
      exact UInt64.lt_of_lt_of_le (sound.fresh kept).2 turn.next_le
  issued_below p issued := by
    rcases issued_append.mp issued with old | issues
    · exact UInt64.lt_of_lt_of_le (accounts.issued_below p old) turn.next_le
    · exact (turn.of_issues issues).2.1
  tracked p issued := by
    rcases issued_append.mp issued with old | issues
    · exact Tracked.step accounts sound turn before after old
    · exact Tracked.new accounts turn before after issues
  receipt id t made := by
    rcases turn.exists_receipt made with there | ⟨p, issues, records⟩
    · obtain ⟨p, issued, records⟩ := accounts.receipt id t there
      exact ⟨p, issued_append.mpr (.inl issued), records⟩
    · exact ⟨p, issued_append.mpr (.inr issues), records⟩
  pays e mem asks := by
    rcases List.mem_append.mp mem with old | new
    · exact (accounts.pays e old asks).append
    · obtain rfl := List.mem_singleton.mp new
      exact (Pays.step accounts sound turn before after asks).append
  balance denom := by
    have now := turn.worth_eq sound denom
    have soFar := accounts.balance denom
    simp only [List.map_append, List.map_cons, List.map_nil, List.sum_append, List.sum_cons,
      List.sum_nil]
    omega

end Step

/-- Nothing was sent before the first call. -/
theorem accounts_founded {c : Config} (bounds : c.InBounds) : Accounts [] (.founded c) where
  below _ mem := absurd mem List.not_mem_nil
  issued_below _ issued := absurd issued not_issued_nil
  tracked _ issued := absurd issued not_issued_nil
  receipt _ _ sent := nomatch sent
  pays _ mem := absurd mem List.not_mem_nil
  balance denom := by
    have worth := (Book.sound_founded bounds).held_eq denom
    have held : (Book.founded c).locked.held denom = 0 := rfl
    rw [held] at worth
    rw [← worth]
    rfl

/-- The sends of a run are accounted for. -/
theorem Run.accounts {opening : Response} {s : Store} (h : Run opening run s) :
    Accounts run s.book := by
  refine h.invariant (I := fun run _ b => Accounts run b) ?_ ?_
  · exact fun _ _ bounds => accounts_founded bounds
  · intro run s c reached accounts
    exact accounts.step reached.sound (reached.turn c) reached.keeps (reached.call c).keeps

theorem Run.opening_silent {opening : Response} {s : Store} (h : Run opening run s) :
    opening.messages = [] := by
  induction h with
  | founded done =>
      obtain ⟨_, _, _, silent, _⟩ := Bridge.run_setUp_ok done
      exact silent
  | call _ _ ih => exact ih

/-- One call does not both cancel a send and execute a batch. -/
theorem Moment.not_burns_of_refunds (refunds : m.Refunds p) : ¬ m.Burns p := by
  obtain ⟨env, funds, r, coin, step, _⟩ := refunds
  rintro ⟨n, r', batch, coin', k, step', _⟩
  rw [step'] at step
  cases step

/-- A tracked send has one fate. -/
theorem Tracked.existsUnique {s : Store} (h : s.Keeps b) (tracked : Tracked run b p) :
    ∃! fate, p.Has run s fate := by
  have row : s.transfer? p.id = .ok (b.transfer p.id) := h.transfer? p.id
  cases tracked with
  | @kept t sent records untouched =>
      obtain ⟨u, found, rfl⟩ := Option.map_eq_some_iff.mp sent
      -- a fate of payment needs a moment that took the send out, and there is none
      refine ⟨.kept, ⟨u, row.trans (congrArg _ found), records.of_asSent⟩, ?_⟩
      intro fate has
      cases fate with
      | kept => rfl
      | refunded =>
          obtain ⟨m, once, _⟩ := has
          rw [untouched] at once
          cases once
      | burned =>
          obtain ⟨m, once, _⟩ := has
          rw [untouched] at once
          cases once
  | @gone m gone once paid =>
      -- there is one moment that took the send out, and it is one call
      have no_row : ¬ p.Has run s .kept := by
        rintro ⟨t, found, _⟩
        rw [row, Book.sent_eq_none.mp gone] at found
        cases found
      have same {e : Moment} (h : run.filter (·.removes p.id) = [e]) : e = m :=
        List.singleton_inj.mp (h.symm.trans once)
      rcases paid with refunds | burns
      · refine ⟨.refunded, ⟨m, once, refunds⟩, ?_⟩
        intro fate has
        cases fate with
        | kept => exact absurd has no_row
        | refunded => rfl
        | burned =>
            obtain ⟨e, once', burns⟩ := has
            exact absurd (same once' ▸ burns) (m.not_burns_of_refunds refunds)
      · refine ⟨.burned, ⟨m, once, burns⟩, ?_⟩
        intro fate has
        cases fate with
        | kept => exact absurd has no_row
        | refunded =>
            obtain ⟨e, once', refunds⟩ := has
            exact absurd burns (m.not_burns_of_refunds (same once' ▸ refunds))
        | burned => rfl

/-- Every accepted send of a run is settled at most once, to the right party and for the exact
amount. -/
theorem Run.settlement {opening : Response} {s : Store} (h : Run opening run s) :
    Settlement opening run s where
  settled p issued := (h.accounts.tracked p issued).existsUnique h.reachable.keeps
  opening_silent := h.opening_silent
  pays := h.accounts.pays
  conserved denom := by
    have balance := h.accounts.balance denom
    refine ⟨_, h.reachable.keeps.locked denom, ?_⟩
    rw [← h.reachable.sound.held_eq] at balance
    exact balance

/-! ## A send that is refunded -/

/-- The receipt of the first send. -/
def firstReceipt : Receipt where
  id := 1
  sender := "sender"
  destination := Address.zero.spelling
  amount := firstAmount
  fee := firstFee

/-- Its sender cancels the first send. -/
def firstCancel : Call :=
  .command ⟨2, ⟨0⟩⟩ ⟨"sender", []⟩ (.cancelSend 1)

/-- The first send can be cancelled, and is gone then. -/
theorem run_firstCancel :
    ∃ r s b, firstCancel.run (firstSend.run plainStore).2 = (.ok r, s) ∧ s.Keeps b ∧
      b.sent firstReceipt.id = none := by
  have reached : Reachable (firstSend.run plainStore).2 := .call _ (.founded founded_plainStore)
  have sound := reached.sound
  obtain ⟨config, _, _, _, _, _, keeps⟩ := run_firstSend
  rw [keeps.book_eq] at sound
  have kept : ((Book.founded config).accept firstTransfer firstSum).transfer
      firstTransfer.id = some firstTransfer := Book.transfer_accept.mpr (.inl ⟨rfl, rfl⟩)
  obtain ⟨s, stored⟩ := Pool.exists_keeps_refund keeps sound kept
  have ran : (Bridge.cancelSend ⟨"sender", []⟩ 1).run _ = (.ok _, s) :=
    (Bridge.run_cancelSend_eq_ok keeps sound).mpr
      ⟨firstTransfer, kept, rfl, rfl, rfl, rfl, stored⟩
  have gone := Book.refund_transfer_self (b := (Book.founded config).accept firstTransfer
    firstSum) firstTransfer
  exact ⟨_, s, _, Operation.run_atomic_eq_ok.mpr ran, stored, Book.sent_eq_none.mpr gone⟩

/-- The first send and its cancellation. -/
def firstMoments : List Moment :=
  [.of plainStore firstSend, .of (firstSend.run plainStore).2 firstCancel]

/-- Neither executes a batch. -/
theorem not_burns_of_mem_firstMoments (mem : m ∈ firstMoments) : ¬ m.Burns p := by
  rintro ⟨n, r, _, _, _, step, _⟩
  have call := congrArg Step.call step
  rcases List.mem_cons.mp mem with rfl | mem
  · cases call
  · obtain rfl := List.mem_singleton.mp mem
    cases call

/-- After the first send was cancelled, it is refunded. -/
theorem settlement_after_firstCancel :
    ∃ opening s, Run opening firstMoments s ∧ Settlement opening firstMoments s ∧
      Issued firstMoments firstReceipt ∧ firstReceipt.Has firstMoments s .refunded := by
  obtain ⟨opening, done⟩ := founded_plainStore
  have run : Run opening firstMoments _ := ((Run.founded done).call firstSend).call firstCancel
  obtain ⟨_, r, _, _, named, ran, _⟩ := run_firstSend
  obtain ⟨r', s, b, ran', keeps, gone⟩ := run_firstCancel
  have answer : (firstSend.run plainStore).1 = .ok r := congrArg Prod.fst ran
  have issued : Issued firstMoments firstReceipt :=
    ⟨.of plainStore firstSend, List.mem_cons_self, _, _, r, congrArg (Step.mk firstSend) answer,
      named⟩
  have tracked := run.accounts.tracked firstReceipt issued
  have left : (firstCancel.run (firstSend.run plainStore).2).2.book = b :=
    ran' ▸ keeps.book_eq
  rw [left] at tracked
  refine ⟨opening, _, run, run.settlement, issued, ?_⟩
  cases tracked with
  | kept sent =>
      rw [gone] at sent
      cases sent
  | @gone m _ once paid =>
      have mem : m ∈ firstMoments := List.mem_of_mem_filter (once ▸ List.mem_singleton_self m)
      exact ⟨m, once, paid.resolve_right (not_burns_of_mem_firstMoments mem)⟩

end Chain

end BridgePool
