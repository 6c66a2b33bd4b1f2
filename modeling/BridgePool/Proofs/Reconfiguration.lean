import BridgePool.Proofs.Book.Counters
import BridgePool.Proofs.Lifecycle
import BridgePool.Proofs.Recovery
import BridgePool.Proofs.Settlement

/-!
# The configuration matters to intake only

While the bridge is paused no transfer and no batch is added, and that is all that a pause does to
funds: lifecycle calls answer the same under every configuration with the same administrator, and
leave stores that differ in the configuration only (`Run.intakeOnly`).

* `Store.Reconfigured` — two stores that differ in the configuration at most;
* `Moves.under` — what lifecycle calls do to a book, they do to it under any configuration;
* `Store.Reconfigured.run`, `Store.Reconfigured.play` — one lifecycle call, and any number of them.
-/

namespace BridgePool

open Chain Operation

/-- The bridge is paused. -/
def Store.Paused (s : Store) : Prop :=
  ∃ config, s.config = .ok config ∧ config.paused = true

/-- The moment adds no transfer and no batch. -/
structure Chain.Moment.AddsNothing (m : Moment) : Prop where
  transfers : ∀ id, m.before.transfer? id = .ok none → m.after.transfer? id = .ok none
  batches : ∀ n, m.before.batch? n = .ok none → m.after.batch? n = .ok none

/-- The stores differ in the configuration at most, and have the same administrator. -/
structure Store.Reconfigured (s s' : Store) : Prop where
  rows : ∀ key, key ≠ Cell.config.key → s'.get? key = s.get? key
  admin : ∃ config config', s.config = .ok config ∧ s'.config = .ok config' ∧
    config'.admin = config.admin

/-- Lifecycle calls answer the same on both stores, and leave them different in the configuration
at most. -/
structure Store.ServesAlike (s s' : Store) : Prop where
  call : ∀ c : Call, c.InLifecycle →
    (c.run s').1 = (c.run s).1 ∧ (c.run s).2.Reconfigured (c.run s').2
  calls : ∀ cs : List Call, (∀ c ∈ cs, c.InLifecycle) →
    (play s' cs).1 = (play s cs).1 ∧ (play s cs).2.Reconfigured (play s' cs).2

/-- What the configuration has a say in. -/
structure Chain.IntakeOnly (past : List Moment) (s : Store) : Prop where
  /-- Nothing is added while the bridge is paused. -/
  paused : ∀ m ∈ past, m.before.Paused → m.AddsNothing
  /-- Under any other configuration lifecycle calls do the same. -/
  reconfigured : ∀ s', Reachable s' → s.Reconfigured s' → s.ServesAlike s'

variable {s s' : Store} {b b' : Book} {c : Call} {r : Response} {d : Deed} {ds : List Deed}
  {config : Config} {fault : Fault}

/-! ## While the bridge is paused -/

/-- A deed that takes nothing in adds no transfer and no batch. -/
theorem Move.adds_nothing (m : Move b d b') (idle : d.accepts = false ∧ d.gathers = false) :
    (∀ id, b.transfer id = none → b'.transfer id = none) ∧
      ∀ n, b.batch n = none → b'.batch n = none := by
  have closed {n : UInt64} {batch : Batch} {state : BatchState}
      (recorded : b.batch batch.nonce = some batch) (gone : b.batch n = none) :
      b.closing batch state n = none := by
    rw [← Option.not_isSome_iff_eq_none, Book.closing_isSome recorded, gone]
    exact Bool.false_ne_true
  cases m with
  | accept => cases idle.1
  | gather => cases idle.2
  | refund =>
      refine ⟨fun id gone => ?_, fun _ => id⟩
      show Function.update b.transfer _ none id = none
      rw [Function.update_apply, gone, ite_self]
  | disband recorded => exact ⟨fun _ => Book.moved_eq_none, fun _ => closed recorded⟩
  | settle recorded =>
      refine ⟨fun id gone => ?_, fun _ => closed recorded⟩
      show b.without _ id = none
      rw [Book.without, gone, ite_self]
  | _ => exact ⟨fun _ => id, fun _ => id⟩

theorem Moves.adds_nothing (m : Moves b ds b')
    (idle : ∀ d ∈ ds, d.accepts = false ∧ d.gathers = false) :
    (∀ id, b.transfer id = none → b'.transfer id = none) ∧
      ∀ n, b.batch n = none → b'.batch n = none := by
  induction m with
  | done => exact ⟨fun _ => id, fun _ => id⟩
  | next first _ ih =>
      obtain ⟨now, rest⟩ := List.forall_mem_cons.mp idle
      obtain ⟨transfers, batches⟩ := first.adds_nothing now
      obtain ⟨transfers', batches'⟩ := ih rest
      exact ⟨fun id gone => transfers' id (transfers id gone),
        fun n gone => batches' n (batches n gone)⟩

/-- While the bridge is paused, no call takes anything in. -/
theorem Outcome.idle_of_paused (outcome : Outcome b c r ds) (configured : b.config = some config)
    (paused : config.paused = true) : ∀ d ∈ ds, d.accepts = false ∧ d.gathers = false := by
  have active {other : Config} (found : b.config = some other) : other.paused ≠ false := by
    rw [configured, Option.some.injEq] at found
    simp [← found, paused]
  cases outcome with
  | send sends =>
      obtain ⟨_, found, unpaused⟩ := sends.active
      exact absurd unpaused (active found)
  | requestBatch found unpaused => exact absurd unpaused (active found)
  | _ => simp [Deed.accepts, Deed.gathers]

theorem Reachable.adds_nothing (h : Reachable s) (paused : s.Paused) (c : Call) :
    (Moment.of s c).AddsNothing := by
  obtain ⟨config, found, paused⟩ := paused
  have configured := h.keeps.config_eq_ok.mp found
  obtain ⟨transfers, batches⟩ := h.of_outcome c
    (P := fun b' _ => (∀ id, s.book.transfer id = none → b'.transfer id = none) ∧
      ∀ n, s.book.batch n = none → b'.batch n = none)
    (fun _ _ => ⟨fun _ => id, fun _ => id⟩)
    (fun _ _ _ outcome moves => moves.adds_nothing (outcome.idle_of_paused configured paused))
  have keeps' := (h.call c).keeps
  constructor
  case transfers =>
    intro id absent
    rw [Moment.before_of, h.keeps.transfer?, Except.ok.injEq] at absent
    exact (keeps'.transfer? id).trans (congrArg Except.ok (transfers id absent))
  case batches =>
    intro n absent
    rw [Moment.before_of, h.keeps.batch?, Except.ok.injEq] at absent
    exact (keeps'.batch? n).trans (congrArg Except.ok (batches n absent))

/-! ## A book under another configuration -/

/-- The book under another configuration. -/
def Book.under (b : Book) (config : Config) : Book :=
  { b with config := some config }

namespace Book

variable (b : Book) (config : Config)

@[simp] theorem under_accept (t : Transfer) (sum : CoinAmount) :
    (b.accept t sum).under config = (b.under config).accept t sum := by
  simp only [under, accept]

@[simp] theorem under_refund (t : Transfer) :
    (b.refund t).under config = (b.under config).refund t := by
  simp only [under, refund]

@[simp] theorem under_disband (batch : Batch) (state : BatchState) :
    (b.disband batch state).under config = (b.under config).disband batch state :=
  rfl

@[simp] theorem under_settle (batch : Batch) (ts : List Transfer) :
    (b.settle batch ts).under config = (b.under config).settle batch ts :=
  rfl

end Book

/-- The deed neither reads nor writes the configuration. -/
def Deed.Unconfigured : Deed → Prop
  | .gather _ => False
  | .configure _ => False
  | _ => True

theorem Move.under (m : Move b d b') (free : d.Unconfigured) (config : Config) :
    Move (b.under config) d (b'.under config) := by
  cases m with
  | accept own_id room waits spelled positive credited =>
      rw [Book.under_accept]
      exact .accept own_id room waits spelled positive credited
  | refund kept waits =>
      rw [Book.under_refund]
      exact .refund kept waits
  | gather => exact free.elim
  | disband recorded opened ends =>
      rw [Book.under_disband]
      exact .disband recorded opened ends
  | settle recorded opened kept =>
      rw [Book.under_settle]
      exact .settle recorded opened kept
  | configure => exact free.elim
  | propose => exact .propose
  | observe rises => exact .observe rises
  | mark => exact .mark

theorem Moves.under (m : Moves b ds b') (free : ∀ d ∈ ds, d.Unconfigured) (config : Config) :
    Moves (b.under config) ds (b'.under config) := by
  induction m with
  | done => exact .done
  | next first _ ih =>
      obtain ⟨now, rest⟩ := List.forall_mem_cons.mp free
      exact .next (first.under now config) (ih rest)

theorem Move.config_eq (m : Move b d b') (free : d.Unconfigured) : b'.config = b.config := by
  cases m with
  | gather => exact free.elim
  | configure => exact free.elim
  | _ => rfl

theorem Outcome.unconfigured (outcome : Outcome b c r ds) (lifecycle : c.InLifecycle) :
    ∀ d ∈ ds, d.Unconfigured := by
  cases lifecycle <;> cases outcome <;> simp [Deed.Unconfigured]

/-! ## Stores under two configurations -/

/-- A store that differs in the configuration only keeps the book under its own one. -/
theorem Store.Reconfigured.book_eq (same : s.Reconfigured s') (h : s.Keeps b) (h' : s'.Keeps b') :
    ∃ config config', b.config = some config ∧ b' = b.under config' ∧
      config'.admin = config.admin := by
  obtain ⟨config, config', found, found', admin⟩ := same.admin
  have configured' := h'.config_eq_ok.mp found'
  have written : s' = s.saveConfig config' := by
    refine ext_get? fun key => ?_
    rw [saveConfig, save, get?_insert]
    by_cases own : key = Cell.config.key
    · rw [if_pos own, own, h'.get?_key, Book.row, configured', Option.map_some]
    · rw [if_neg own, same.rows key own]
  have keeps := h.saveConfig config'
  rw [← written] at keeps
  exact ⟨config, config', h.config_eq_ok.mp found, h'.book_eq.symm.trans keeps.book_eq, admin⟩

/-- Stores that keep one book under two configurations of one administrator. -/
theorem Store.Keeps.reconfigured {config' : Config} (h : s.Keeps b)
    (h' : s'.Keeps (b.under config')) (configured : b.config = some config)
    (admin : config'.admin = config.admin) : s.Reconfigured s' where
  rows key other := by
    have same : ∀ c ∉ [Cell.config], (b.under config').row c = b.row c := by
      intro c apart
      cases c with
      | config => exact absurd (List.mem_singleton_self _) apart
      | _ => rfl
    exact h.get?_eq_of_row h' same (by simpa using other)
  admin := ⟨config, config', h.config_eq_ok.mpr configured, h'.config_eq_ok.mpr rfl, admin⟩

/-! ## Lifecycle calls under two configurations -/

theorem Store.LacksOpen.congr {nonce : UInt64} (lacks : s.LacksOpen nonce fault)
    (same : s'.batch? nonce = s.batch? nonce) : s'.LacksOpen nonce fault := by
  cases lacks with
  | absent missing => exact .absent (same.trans missing)
  | ended recorded ended => exact .ended (same.trans recorded) ended

theorem Store.LacksWaiting.congr {id : UInt64} {sender : String}
    (lacks : s.LacksWaiting id sender fault) (same : s'.transfer? id = s.transfer? id) :
    s'.LacksWaiting id sender fault := by
  cases lacks with
  | absent missing => exact .absent (same.trans missing)
  | foreign kept foreign => exact .foreign (same.trans kept) foreign
  | carried kept own carried => exact .carried (same.trans kept) own carried

/-- A reason against a lifecycle call is one under every configuration. -/
theorem Refusal.reconfigured (refusal : Refusal s c fault) (same : s.Reconfigured s')
    (batches : ∀ n, s'.batch? n = s.batch? n) (transfers : ∀ id, s'.transfer? id = s.transfer? id) :
    Refusal s' c fault := by
  obtain ⟨config, config', found, found', admins⟩ := same.admin
  cases refusal with
  | batchExecuted lacks => exact .batchExecuted (lacks.congr (batches _))
  | notAdmin configured foreign =>
      obtain rfl := Except.ok.inj (found.symm.trans configured)
      exact .notAdmin found' (admins ▸ foreign)
  | cancelBatch configured admin lacks =>
      obtain rfl := Except.ok.inj (found.symm.trans configured)
      exact .cancelBatch found' (admin.trans admins.symm) (lacks.congr (batches _))
  | funded funded => exact .funded funded
  | cancelSend bare lacks => exact .cancelSend bare (lacks.congr (transfers _))

namespace Store.Reconfigured

/-- A lifecycle call answers the same under both configurations. -/
theorem run (same : s.Reconfigured s') (h : Reachable s) (h' : Reachable s')
    (lifecycle : c.InLifecycle) :
    (c.run s').1 = (c.run s).1 ∧ (c.run s).2.Reconfigured (c.run s').2 := by
  obtain ⟨config, config', configured, own, admin⟩ := same.book_eq h.keeps h'.keeps
  rcases ran : c.run s with ⟨fault | r, s₁⟩
  · obtain rfl := Call.run_error ran
    have refusal := (lifecycle.error_iff h.keeps h.sound).mp (congrArg Prod.fst ran)
    have batches (n : UInt64) : s'.batch? n = s₁.batch? n := by
      rw [h'.keeps.batch?, h.keeps.batch?, own]
      rfl
    have transfers (id : UInt64) : s'.transfer? id = s₁.transfer? id := by
      rw [h'.keeps.transfer?, h.keeps.transfer?, own]
      rfl
    have stops := (refusal.reconfigured same batches transfers).stops
    have stays : (c.run s').2 = s' := Call.run_error (Prod.ext stops rfl)
    exact ⟨stops, stays.symm ▸ same⟩
  · obtain ⟨ds, b', outcome, moves, keeps⟩ := Call.run_ok h.keeps h.sound ran
    have free := outcome.unconfigured lifecycle
    have sees : c.Sees s.book s'.book := by
      rw [own]
      refine ⟨?_, fun _ _ => ⟨rfl, rfl⟩⟩
      rw [configured, Book.under, Option.map_some, Option.map_some, admin]
    have moves' := moves.under free config'
    rw [← own] at moves'
    obtain ⟨s₂, ran', keeps'⟩ :=
      lifecycle.run_of_outcome h'.keeps h'.sound (outcome.of_sees lifecycle sees) moves'
    have unchanged := moves.preserve Book.config Move.config_eq free
    rw [ran']
    exact ⟨rfl, keeps.reconfigured keeps' (unchanged.trans configured) admin⟩

/-- Any number of lifecycle calls answer the same under both configurations. -/
theorem play (same : s.Reconfigured s') (h : Reachable s) (h' : Reachable s') {cs : List Call}
    (lifecycle : ∀ c ∈ cs, c.InLifecycle) :
    (Chain.play s' cs).1 = (Chain.play s cs).1 ∧
      (Chain.play s cs).2.Reconfigured (Chain.play s' cs).2 := by
  induction cs generalizing s s' with
  | nil => exact ⟨rfl, same⟩
  | cons c rest ih =>
      obtain ⟨now, later⟩ := List.forall_mem_cons.mp lifecycle
      obtain ⟨answer, same⟩ := same.run h h' now
      obtain ⟨answers, same⟩ := ih same (h.call c) (h'.call c) later
      rw [play_cons, play_cons, answer, answers]
      exact ⟨rfl, same⟩

end Store.Reconfigured

/-- A pause stops the intake, and no configuration changes what lifecycle calls do. -/
theorem Chain.Run.intakeOnly {opening : Response} {past : List Moment} (h : Run opening past s) :
    IntakeOnly past s where
  paused m mem paused := by
    obtain ⟨s, c, reached, rfl⟩ := h.exists_call mem
    exact reached.adds_nothing paused c
  reconfigured s' reached' same :=
    ⟨fun _ lifecycle => same.run h.reachable reached' lifecycle,
      fun _ lifecycle => same.play h.reachable reached' lifecycle⟩

/-! ## A pause after the first send -/

namespace Chain

/-- The usual parameters on a bridge that is paused. -/
def pausedConfig : Config :=
  { plainConfig with paused := true }

/-- The administrator pauses the bridge. -/
def firstPause : Call :=
  .command ⟨3, ⟨0⟩⟩ ⟨"admin", []⟩ .pause

/-- The store after the first send and the pause. -/
def pausedAfter (s : Store) : Store :=
  (firstPause.run (firstSend.run s).2).2

/-- The first send, the pause and the seventh block. -/
def pausedMoments (s : Store) : List Moment :=
  [.of s firstSend, .of (firstSend.run s).2 firstPause, .of (pausedAfter s) firstHeight]

theorem keeps_pausedAfter (keeps : s.Keeps (.founded plainConfig)) :
    (pausedAfter s).Keeps ((Book.founded pausedConfig).accept firstTransfer firstSum) := by
  obtain ⟨_, _, _, sent⟩ := run_firstSend_founded rfl keeps
  have paused := sent.saveConfig pausedConfig
  have done : (Bridge.setPaused ⟨"admin", []⟩ true).run (firstSend.run s).2 = (.ok _, _) :=
    (Bridge.run_setPaused_eq_ok sent).mpr ⟨plainConfig, rfl, rfl, rfl, paused⟩
  have ran : firstPause.run (firstSend.run s).2 = (.ok _, _) := run_atomic_eq_ok.mpr done
  rw [pausedAfter, ran]
  exact paused

theorem run_pausedMoments {opening : Response} (founded : Run opening [] s) :
    Run opening (pausedMoments s) (firstHeight.run (pausedAfter s)).2 :=
  ((founded.call firstSend).call firstPause).call firstHeight

theorem reachable_pausedAfter (h : Reachable s) : Reachable (pausedAfter s) :=
  (h.call firstSend).call firstPause

/-- After a pause a height is observed and adds nothing. The first send can be cancelled then, with
the same answer as on a bridge that is not paused and has other parameters. -/
theorem intakeOnly_after_firstPause : ∃ opening s s', Run opening (pausedMoments plainStore) s ∧
    IntakeOnly (pausedMoments plainStore) s ∧
      (∃ m ∈ pausedMoments plainStore, m.before.Paused ∧ m.AddsNothing) ∧
        Reachable s' ∧ s.Paused ∧ ¬ s'.Paused ∧ s.Reconfigured s' ∧ firstCancel.Succeeds s ∧
          (firstCancel.run s').1 = (firstCancel.run s).1 := by
  obtain ⟨opening, done⟩ := founded_plainStore
  have run := run_pausedMoments (.founded done)
  have paused := keeps_pausedAfter keeps_plainStore
  have keeps := keeps_firstHeight (reachable_pausedAfter (.founded founded_plainStore)) paused
  have sound := run.reachable.sound
  rw [keeps.book_eq] at sound
  obtain ⟨_, _, _, sent'⟩ := run_firstSend_founded rfl keeps_lastingStore
  have reached' := (Reachable.founded founded_lastingStore).call firstSend
  have keeps' := keeps_firstHeight reached' sent'
  have reached' := reached'.call firstHeight
  have under : firstBook lastingConfig = (firstBook pausedConfig).under lastingConfig := rfl
  rw [under] at keeps'
  have other := keeps.reconfigured keeps' rfl rfl
  have intake := run.intakeOnly
  have before : (Moment.of (pausedAfter plainStore) firstHeight).before.Paused := by
    rw [Moment.before_of]
    exact ⟨_, paused.config_eq_ok.mpr rfl, rfl⟩
  have mem : Moment.of (pausedAfter plainStore) firstHeight ∈ pausedMoments plainStore :=
    List.mem_of_getLast? rfl
  have waits : Store.HasWaiting _ 1 "sender" := ⟨firstTransfer, keeps.transfer? 1, rfl, rfl⟩
  have alike := (intake.reconfigured _ reached' other).call firstCancel (.cancelSend _ _ _)
  refine ⟨opening, _, _, run, intake, ⟨_, mem, before, intake.paused _ mem before⟩, reached',
    ⟨_, keeps.config_eq_ok.mpr rfl, rfl⟩, ?_, other,
    keeps.cancelSend_succeeds sound (fun _ mem => absurd mem List.not_mem_nil) waits _, alike.1⟩
  rintro ⟨config, found, paused⟩
  rw [keeps'.config_eq_ok] at found
  obtain rfl := Option.some.inj found
  cases paused

end Chain

end BridgePool
