import BridgePool.Proofs.Book.Counters
import BridgePool.Proofs.Heights
import BridgePool.Proofs.Indices

/-!
# Ids, nonces and batch records along a run

The sends that succeed are numbered one after the other, and so are the requests that make a
batch, whatever happens in between. Every batch that was made is kept as it was made but for its
state, which moves at most once, away from the open one (`Run.numbering`).
-/

namespace BridgePool

variable {s : Store} {b b' : Book} {n : UInt64}

/-- Every batch of the first store is in the second one, as what it can have become. -/
def Store.HandsOn (s s' : Store) : Prop :=
  ∀ n first, s.batch? n = .ok (some first) →
    ∃ second, s'.batch? n = .ok (some second) ∧ first.Becomes second

namespace Chain

/-- A send is accepted under an id, which it is answered and under which nothing was kept. -/
structure Moment.Accepts (m : Moment) (id : UInt64) : Prop where
  answered : ∃ r, m.answer = .ok r ∧
    r.attributes.lookup "transaction_id" = some (spellWord id)
  absent : m.before.transfer? id = .ok none
  kept : ∃ t, m.after.transfer? id = .ok (some t) ∧ t.id = id ∧ t.state = .unbatched

/-- An open batch is made under a nonce, which is answered and under which none was kept. -/
structure Moment.Makes (m : Moment) (nonce : UInt64) : Prop where
  answered : ∃ r, m.answer = .ok r ∧ r.attributes.lookup "batch_nonce" = some (spellWord nonce)
  absent : m.before.batch? nonce = .ok none
  kept : ∃ batch, m.after.batch? nonce = .ok (some batch) ∧ batch.nonce = nonce ∧
    batch.state = .open

/-- The state of a batch changes. -/
def Moment.Closes (m : Moment) (nonce : UInt64) : Prop :=
  ∃ first second, m.before.batch? nonce = .ok (some first) ∧
    m.after.batch? nonce = .ok (some second) ∧ second.state ≠ first.state

/-- The marked moments are numbered from one on. -/
def Numbered (mark : Moment → Bool) (Bears : Moment → UInt64 → Prop) (past : List Moment) : Prop :=
  ∀ k m, (past.filter mark)[k]? = some m → ∃ n : UInt64, n.toNat = k + 1 ∧ Bears m n

/-- How ids and nonces are given out along a run, and what becomes of the batches. -/
structure Numbering (past : List Moment) (s : Store) : Prop where
  ids : Numbered (·.sends) Moment.Accepts past
  nonces : Numbered (·.requests) Moment.Makes past
  next_id : ∃ next, s.nextId = .ok next ∧ next.toNat = (past.filter (·.sends)).length + 1
  last_nonce : ∃ last, s.lastNonce = .ok last ∧
    last.toNat = (past.filter (·.requests)).length
  /-- The rows under `03` are those of the nonces from one to the last. -/
  batch_rows : ∃ last, s.lastNonce = .ok last ∧ ∀ key, key.head? = some 0x03 →
    ((s.get? key).isSome ↔ ∃ n : UInt64, 1 ≤ n ∧ n ≤ last ∧ key = (Cell.batch n).key)
  /-- No call changes anything of a batch but its state, and that only while it is open. -/
  hands_on : ∀ m ∈ past, m.before.HandsOn m.after
  /-- Neither do any calls together. -/
  kept : ∀ m ∈ past, m.after.HandsOn s
  /-- The state of a batch changes once at most. -/
  closed_once : ∀ nonce, past.Pairwise fun m e => m.Closes nonce → ¬ e.Closes nonce

end Chain

open Chain

/-! ## One call -/

namespace Store.HandsOn

theorem refl (s : Store) : s.HandsOn s :=
  fun _ first found => ⟨first, found, .refl first⟩

theorem trans {s₁ s₂ s₃ : Store} (h : s₁.HandsOn s₂) (h' : s₂.HandsOn s₃) : s₁.HandsOn s₃ := by
  intro n first found
  obtain ⟨second, found, becomes⟩ := h n first found
  obtain ⟨third, found, becomes'⟩ := h' n second found
  exact ⟨third, found, becomes.trans becomes'⟩

/-- What is kept under a nonce before and after is one batch. -/
theorem becomes {s' : Store} {first second : Batch} (h : s.HandsOn s')
    (found : s.batch? n = .ok (some first)) (found' : s'.batch? n = .ok (some second)) :
    first.Becomes second := by
  obtain ⟨now, same, becomes⟩ := h n first found
  rw [found', Except.ok.injEq, Option.some.injEq] at same
  exact same ▸ becomes

end Store.HandsOn

/-- What every call does to the counters and to the batches. -/
theorem Call.counts (h : s.Keeps b) (sound : b.Sound) (c : Call) :
    ∃ b', (c.run s).2.Keeps b' ∧ s.HandsOn (c.run s).2 ∧
      (b'.next.toNat = b.next.toNat + if (Moment.of s c).sends then 1 else 0) ∧
      (b'.last.toNat = b.last.toNat + if (Moment.of s c).requests then 1 else 0) := by
  rcases ran : c.run s with ⟨fault | r, s'⟩
  · obtain rfl := run_error ran
    refine ⟨b, h, .refl s', ?_, ?_⟩ <;> simp [Moment.of_ran ran, Step.sends, Step.requests]
  · obtain ⟨ds, b', outcome, moves, keeps⟩ := run_ok h sound ran
    rw [Moment.of_ran ran]
    refine ⟨b', keeps, ?_, ?_, ?_⟩
    · intro n first found
      rw [h.batch?, Except.ok.injEq] at found
      obtain ⟨second, found, becomes⟩ := moves.becomes sound found
      exact ⟨second, (keeps.batch? n).trans (congrArg _ found), becomes⟩
    · rw [moves.next_toNat, outcome.countP_accepts]
    · rw [moves.last_toNat, outcome.countP_gathers]

/-- A send that succeeds is accepted under the next id. -/
theorem Call.accepts_next (h : s.Keeps b) (sound : b.Sound) {c : Call}
    (sends : (Moment.of s c).sends = true) : (Moment.of s c).Accepts b.next := by
  rcases ran : c.run s with ⟨fault | r, s'⟩
  · simp [Moment.of_ran ran, Step.sends] at sends
  · rw [Moment.of_ran ran] at sends ⊢
    obtain ⟨ds, b', outcome, moves, keeps⟩ := run_ok h sound ran
    cases outcome with
    | @send _ _ _ _ _ t sent =>
        cases moves.of_single with
        | @accept _ sum own_id _ waits _ _ _ =>
        have found : (b.accept t sum).transfer t.id = some t :=
          Book.transfer_accept.mpr (.inl ⟨rfl, rfl⟩)
        rw [← own_id]
        constructor
        case answered => exact ⟨_, rfl, by simp [Bridge.sendAccepted, List.lookup_cons]⟩
        case absent => exact (h.transfer? _).trans (congrArg _ (sound.not_kept_new own_id))
        case kept => exact ⟨t, (keeps.transfer? _).trans (congrArg _ found), rfl, waits⟩
    | _ => simp [Step.sends] at sends

/-- A request that succeeds makes a batch under the nonce after the last. -/
theorem Call.makes_next (h : s.Keeps b) (sound : b.Sound) {c : Call}
    (requests : (Moment.of s c).requests = true) :
    ∃ nonce, nonce.toNat = b.last.toNat + 1 ∧ (Moment.of s c).Makes nonce := by
  rcases ran : c.run s with ⟨fault | r, s'⟩
  · simp [Moment.of_ran ran, Step.requests] at requests
  · rw [Moment.of_ran ran] at requests ⊢
    obtain ⟨ds, b', outcome, moves, keeps⟩ := run_ok h sound ran
    cases outcome with
    | @requestBatch _ _ _ _ _ batch _ _ _ gathers _ =>
        cases moves.of_single with
        | gather =>
        have found : (b.gather batch).batch batch.nonce = some batch :=
          Function.update_self _ _ _
        refine ⟨batch.nonce, gathers.own_nonce ▸ toNat_succ gathers.room, ?_⟩
        constructor
        case answered => exact ⟨_, rfl, by simp [Bridge.batchRequested, List.lookup_cons]⟩
        case absent => exact (h.batch? _).trans (congrArg _ (gathers.new_batch sound.filed))
        case kept =>
          exact ⟨batch, (keeps.batch? _).trans (congrArg _ found), rfl, gathers.opened⟩
    | _ => simp [Step.requests] at requests

/-- A change of state closes an open batch for good. -/
theorem Chain.Moment.Closes.ends {m : Moment} {nonce : UInt64} (closes : m.Closes nonce)
    (hands : m.before.HandsOn m.after) :
    ∃ batch, m.after.batch? nonce = .ok (some batch) ∧ batch.state ≠ .open := by
  obtain ⟨first, second, found, found', changes⟩ := closes
  exact ⟨second, found', ((hands.becomes found found').ends changes).2⟩

theorem Chain.Moment.not_closes {m : Moment} {nonce : UInt64} {batch : Batch}
    (hands : m.before.HandsOn m.after) (recorded : m.before.batch? nonce = .ok (some batch))
    (ended : batch.state ≠ .open) : ¬ m.Closes nonce := by
  rintro ⟨first, second, found, found', changes⟩
  rw [recorded, Except.ok.injEq, Option.some.injEq] at found
  subst found
  exact ended ((hands.becomes recorded found').ends changes).1

/-- The batch rows of a sound book are those of the nonces up to the last. -/
theorem Store.Keeps.isSome_batch_row_iff (h : s.Keeps b) (sound : b.Sound) {key : Bytes}
    (head : key.head? = some 0x03) :
    (s.get? key).isSome ↔ ∃ n : UInt64, 1 ≤ n ∧ n ≤ b.last ∧ key = (Cell.batch n).key := by
  have row (n : UInt64) : (s.get? (Cell.batch n).key).isSome ↔ 1 ≤ n ∧ n ≤ b.last := by
    rw [h.get?_key, ← sound.numbered, Book.row, Option.isSome_map]
  constructor
  · intro there
    obtain ⟨value, found⟩ := Option.isSome_iff_exists.mp there
    obtain ⟨batch, rfl, _, _⟩ := (Store.batch_row_iff h head).mp found
    obtain ⟨first, last⟩ := (row batch.nonce).mp there
    exact ⟨batch.nonce, first, last, rfl⟩
  · rintro ⟨n, first, last, rfl⟩
    exact (row n).mpr ⟨first, last⟩

/-! ## Runs -/

namespace Chain

variable {opening : Response} {past : List Moment}

/-- The moments are numbered on if a marked one bears the next number. -/
theorem Numbered.append {mark : Moment → Bool} {Bears : Moment → UInt64 → Prop} {m : Moment}
    (numbered : Numbered mark Bears past)
    (next : mark m = true → ∃ n : UInt64, n.toNat = (past.filter mark).length + 1 ∧ Bears m n) :
    Numbered mark Bears (past ++ [m]) := by
  intro k e found
  rw [List.filter_append] at found
  by_cases marked : mark m = true
  · rw [List.filter_cons_of_pos marked, List.filter_nil] at found
    by_cases old : k < (past.filter mark).length
    · rw [List.getElem?_append_left old] at found
      exact numbered k e found
    · rw [List.getElem?_append_right (by omega), List.getElem?_singleton] at found
      split at found
      next last =>
        obtain rfl := Option.some.inj found
        obtain ⟨n, number, bears⟩ := next marked
        exact ⟨n, by omega, bears⟩
      next => cases found
  · rw [List.filter_cons_of_neg marked, List.filter_nil, List.append_nil] at found
    exact numbered k e found

theorem length_filter_append (mark : Moment → Bool) (past : List Moment) (m : Moment) :
    ((past ++ [m]).filter mark).length =
      (past.filter mark).length + if mark m then 1 else 0 := by
  rw [List.filter_append, List.length_append, List.filter_singleton]
  cases mark m <;> rfl

/-- What a run knows of its numbers and of its batches. -/
structure Counted (past : List Moment) (s : Store) (b : Book) : Prop where
  ids : Numbered (·.sends) Moment.Accepts past
  nonces : Numbered (·.requests) Moment.Makes past
  next : b.next.toNat = (past.filter (·.sends)).length + 1
  last : b.last.toNat = (past.filter (·.requests)).length
  hands_on : ∀ m ∈ past, m.before.HandsOn m.after
  kept : ∀ m ∈ past, m.after.HandsOn s
  linked : past.Pairwise fun m e => m.after.HandsOn e.before

theorem Counted.step (counted : Counted past s s.book) (reached : Reachable s) (c : Call) :
    Counted (past ++ [.of s c]) (c.run s).2 (c.run s).2.book := by
  obtain ⟨b', keeps', hands, next, last⟩ := c.counts reached.keeps reached.sound
  rw [keeps'.book_eq]
  constructor
  case ids =>
    refine counted.ids.append fun sends => ⟨s.book.next, counted.next, ?_⟩
    exact Call.accepts_next reached.keeps reached.sound sends
  case nonces =>
    refine counted.nonces.append fun requests => ?_
    rw [← counted.last]
    exact Call.makes_next reached.keeps reached.sound requests
  case next =>
    rw [next, counted.next, length_filter_append]
    omega
  case last => rw [last, counted.last, length_filter_append]
  case hands_on =>
    intro m mem
    rcases List.mem_append.mp mem with old | new
    · exact counted.hands_on m old
    · obtain rfl := List.mem_singleton.mp new
      exact hands
  case kept =>
    intro m mem
    rcases List.mem_append.mp mem with old | new
    · exact (counted.kept m old).trans hands
    · obtain rfl := List.mem_singleton.mp new
      exact .refl _
  case linked =>
    refine List.pairwise_append.mpr ⟨counted.linked, List.pairwise_singleton _ _, ?_⟩
    intro m old e new
    obtain rfl := List.mem_singleton.mp new
    exact counted.kept m old

theorem Run.counted (h : Run opening past s) : Counted past s s.book := by
  refine h.invariant (I := Counted) ?_ ?_
  · intro s c _
    constructor
    case next => rfl
    case last => rfl
    case linked => exact .nil
    all_goals simp [Numbered]
  · exact fun _ _ c reached counted => counted.step reached c

/-- A batch that was closed is not closed again. -/
theorem Counted.closed_once (counted : Counted past s b) (nonce : UInt64) :
    past.Pairwise fun m e => m.Closes nonce → ¬ e.Closes nonce := by
  refine counted.linked.imp_of_mem ?_
  intro m e memM memE linked closes
  obtain ⟨batch, recorded, ended⟩ := closes.ends (counted.hands_on m memM)
  obtain ⟨now, recorded, becomes⟩ := linked nonce batch recorded
  refine e.not_closes (counted.hands_on e memE) recorded ?_
  rw [becomes.final ended]
  exact ended

/-- Ids, nonces and batch records along every run. -/
theorem Run.numbering (h : Run opening past s) : Numbering past s where
  ids := h.counted.ids
  nonces := h.counted.nonces
  next_id := ⟨_, h.reachable.keeps.nextId, h.counted.next⟩
  last_nonce := ⟨_, h.reachable.keeps.lastNonce, h.counted.last⟩
  batch_rows := ⟨_, h.reachable.keeps.lastNonce, fun _ head =>
    h.reachable.keeps.isSome_batch_row_iff h.reachable.sound head⟩
  hands_on := h.counted.hands_on
  kept := h.counted.kept
  closed_once := h.counted.closed_once

/-- After the first request the first send and the first batch are numbered one. -/
theorem numbering_after_firstRequest : ∃ opening,
    Run opening (firstMomentsOf plainStore) (requested plainStore) ∧
      Numbering (firstMomentsOf plainStore) (requested plainStore) ∧
        (requested plainStore).nextId = .ok 2 ∧ (requested plainStore).lastNonce = .ok 1 := by
  obtain ⟨opening, done⟩ := founded_plainStore
  obtain ⟨c, bounds, active, _, keeps⟩ := Bridge.run_setUp_ok done
  have run := (Run.founded done).requested
  have gathered := (keeps_requested bounds active (.founded founded_plainStore) keeps).2
  exact ⟨opening, run, run.numbering, gathered.nextId, gathered.lastNonce⟩

end Chain

end BridgePool
