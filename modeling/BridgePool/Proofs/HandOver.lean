import BridgePool.Proofs.Run

/-!
# Hand-over of the administrator

Along a run the administrator changes only when a candidate takes over, and that only after the
administrator has proposed this very candidate, at least seven days before and with no other
proposal, withdrawal or take-over since. What else a configuration holds, and the proposal, is the
administrator's to change (`Run.handOver`).

* `Chain.Tenure` — what one step can do to the configuration and to the proposal;
* `Chain.Proposed` — the proposal that is recorded is the last administrative step of the run.
-/

namespace BridgePool

open Chain

variable {b b' : Book} {d : Deed} {ds : List Deed} {c : Call} {r : Response} {s : Store}

namespace Chain

/-! ## Steps of the administration -/

/-- Whether a step is a proposal, a withdrawal or a take-over that succeeded. -/
def Step.administers (e : Step) : Bool :=
  match e.call, e.answer with
  | .command _ _ (.propose _), .ok _ => true
  | .command _ _ .withdraw, .ok _ => true
  | .command _ _ .accept, .ok _ => true
  | _, _ => false

/-- The step is a successful proposal of a candidate, made by `proposer` at `time`. -/
def Step.Proposes (e : Step) (proposer candidate : String) (time : Instant) : Prop :=
  ∃ height funds r,
    e = ⟨.command ⟨height, time⟩ ⟨proposer, funds⟩ (.propose candidate), .ok r⟩

/-- The step is a successful acceptance by a candidate at `time`. -/
def Step.TakesOver (e : Step) (candidate : String) (time : Instant) : Prop :=
  ∃ height funds r, e = ⟨.command ⟨height, time⟩ ⟨candidate, funds⟩ .accept, .ok r⟩

/-- The last administrative step, if there was one. -/
def lastAdministered (past : List Moment) : Option Moment :=
  (past.filter (·.administers)).getLast?

/-- How the administrator is handed over along a run. -/
structure HandOver (past : List Moment) : Prop where
  /-- The administrator changes only when someone takes over, who is the administrator then. -/
  admin : ∀ m ∈ past, ∃ c c', m.before.config = .ok c ∧ m.after.config = .ok c' ∧
    (c'.admin ≠ c.admin → ∃ time, m.TakesOver c'.admin time)
  /-- Before someone takes over, the last administrative step is a proposal of theirs, made seven
  days ago or earlier by whoever is still the administrator. -/
  timelocked : ∀ earlier m later, past = earlier ++ m :: later →
    ∀ candidate time, m.TakesOver candidate time →
      ∃ proposal c started, lastAdministered earlier = some proposal ∧
        m.before.config = .ok c ∧ proposal.Proposes c.admin candidate started ∧
          started.nanos.toNat + 604800 * 1000000000 ≤ time.nanos.toNat
  /-- A command of anyone but the administrator changes no parameter, and no proposal but the one
  that its candidate accepts. -/
  guarded : ∀ m ∈ past, ∀ env caller command, m.call = .command env caller command →
    ∃ c c' p, m.before.config = .ok c ∧ m.after.config = .ok c' ∧ m.before.proposal? = .ok p ∧
      (caller.sender ≠ c.admin →
        (c'.paused = c.paused ∧ c'.batchSize = c.batchSize ∧
          c'.timeoutBlocks = c.timeoutBlocks ∧ c'.bridge = c.bridge) ∧
        (m.after.proposal? = .ok p ∨ command = .accept ∧ m.after.proposal? = .ok none ∧
          ∃ notBefore, p = some ⟨caller.sender, notBefore⟩))

end Chain

/-! ## One step -/

theorem Instant.later?_eq_some {t t' : Instant} {seconds : Nat}
    (later : t.later? seconds = some t') :
    t'.nanos.toNat = t.nanos.toNat + seconds * 1000000000 := by
  rw [later?] at later
  split at later
  next room =>
    obtain rfl := Option.some.inj later
    exact UInt64.toNat_ofNat_of_lt' room
  next => cases later

/-- Whether a deed leaves the configuration and the proposal alone. -/
def Deed.LeavesOffice : Deed → Prop
  | .configure _ => False
  | .propose _ => False
  | _ => True

theorem Move.office_eq (m : Move b d b') (leaves : d.LeavesOffice) :
    b'.config = b.config ∧ b'.proposal = b.proposal := by
  cases m with
  | configure => exact leaves.elim
  | propose => exact leaves.elim
  | _ => exact ⟨rfl, rfl⟩

/-- What a step does to the configuration and to the proposal of a book. -/
inductive Chain.Tenure (b b' : Book) : Step → Prop
  | propose {env : Env} {caller : Caller} {candidate : String} {c : Config} {notBefore : Instant}
      {r : Response} (config : b.config = some c) (admin : caller.sender = c.admin)
      (later : env.time.later? Config.adminDelay = some notBefore)
      (config' : b'.config = some c) (proposal : b'.proposal = some ⟨candidate, notBefore⟩) :
      Tenure b b' ⟨.command env caller (.propose candidate), .ok r⟩
  | accept {env : Env} {caller : Caller} {c : Config} {p : Proposal} {r : Response}
      (config : b.config = some c) (proposed : b.proposal = some p)
      (candidate : caller.sender = p.candidate) (due : p.notBefore.nanos ≤ env.time.nanos)
      (config' : b'.config = some { c with admin := p.candidate }) (proposal : b'.proposal = none) :
      Tenure b b' ⟨.command env caller .accept, .ok r⟩
  | withdraw {env : Env} {caller : Caller} {c : Config} {r : Response}
      (config : b.config = some c) (admin : caller.sender = c.admin)
      (config' : b'.config = some c) (proposal : b'.proposal = none) :
      Tenure b b' ⟨.command env caller .withdraw, .ok r⟩
  | configure {env : Env} {caller : Caller} {command : Command} {c c' : Config} {r : Response}
      (config : b.config = some c) (admin : caller.sender = c.admin)
      (config' : b'.config = some c') (same : c'.admin = c.admin)
      (proposal : b'.proposal = b.proposal)
      (quiet : Step.administers ⟨.command env caller command, .ok r⟩ = false) :
      Tenure b b' ⟨.command env caller command, .ok r⟩
  | rest {e : Step} (config : b'.config = b.config) (proposal : b'.proposal = b.proposal)
      (quiet : e.administers = false) : Tenure b b' e

theorem Chain.Tenure.of_leaving (moves : Moves b ds b') (leave : ∀ d ∈ ds, d.LeavesOffice)
    (quiet : Step.administers ⟨c, .ok r⟩ = false) : Tenure b b' ⟨c, .ok r⟩ := by
  have config := moves.preserve Book.config (fun m leaves => (m.office_eq leaves).1) leave
  have proposal := moves.preserve Book.proposal (fun m leaves => (m.office_eq leaves).2) leave
  exact .rest config proposal quiet

/-- What a successful step does to the configuration and to the proposal. -/
theorem Outcome.tenure (h : Outcome b c r ds) (moves : Moves b ds b') :
    Tenure b b' ⟨c, .ok r⟩ := by
  cases h with
  | propose config admin _ later =>
      cases moves.of_single with
      | propose => exact .propose config admin later config rfl
  | accept config proposed candidate due =>
      -- two deeds: the new administrator, then no proposal
      cases moves with
      | next first rest =>
      cases first with
      | configure =>
      cases rest.of_single with
      | propose => exact .accept config proposed candidate due rfl rfl
  | withdraw config admin =>
      cases moves.of_single with
      | propose => exact .withdraw config admin config rfl
  | configure config admin changed =>
      cases moves.of_single with
      | configure => exact .configure config admin rfl changed.admin rfl rfl
  | pause config admin =>
      cases moves.of_single with
      | configure => exact .configure config admin rfl rfl rfl rfl
  | unpause config admin =>
      cases moves.of_single with
      | configure => exact .configure config admin rfl rfl rfl rfl
  | endBlock => exact .of_leaving moves (by simp [Deed.LeavesOffice]) rfl
  | _ => exact .of_leaving moves (by simp [Deed.LeavesOffice]) rfl

/-- What every call does to the configuration and to the proposal. -/
theorem Reachable.tenure (h : Reachable s) (c : Call) :
    Tenure s.book (c.run s).2.book ⟨c, (c.run s).1⟩ := by
  refine h.of_outcome (P := fun b' answer => Tenure s.book b' ⟨c, answer⟩) c ?_ ?_
  · intro fault _
    refine .rest rfl rfl ?_
    cases c with
    | command _ _ command => cases command <;> rfl
    | _ => rfl
  · intro r ds b' outcome moves
    exact outcome.tenure moves

namespace Chain

variable {e : Step} {m : Moment} {past : List Moment} {opening : Response}

/-- The administrator changes only when someone takes over. -/
theorem Tenure.admin (turn : Tenure b b' e) (configured : b.Configured) :
    ∃ c c', b.config = some c ∧ b'.config = some c' ∧
      (c'.admin ≠ c.admin → ∃ time, e.TakesOver c'.admin time) := by
  cases turn with
  | propose config _ _ config' _ => exact ⟨_, _, config, config', fun changes => absurd rfl changes⟩
  | @accept env caller c p r config _ candidate _ config' _ =>
      refine ⟨_, _, config, config', fun _ => ⟨env.time, env.height, caller.funds, r, ?_⟩⟩
      rw [← candidate]
  | withdraw config _ config' _ => exact ⟨_, _, config, config', fun changes => absurd rfl changes⟩
  | configure config _ config' same _ _ =>
      exact ⟨_, _, config, config', fun changes => absurd same changes⟩
  | rest config' _ _ =>
      obtain ⟨c, config, _⟩ := configured.config_bounds
      exact ⟨c, c, config, config'.trans config, fun changes => absurd rfl changes⟩

/-- What a command of anyone but the administrator leaves as it was. -/
theorem Tenure.guarded {env : Env} {caller : Caller} {command : Command}
    {answer : Except Fault Response} (turn : Tenure b b' ⟨.command env caller command, answer⟩)
    (configured : b.Configured) :
    ∃ c c', b.config = some c ∧ b'.config = some c' ∧
      (caller.sender ≠ c.admin →
        (c'.paused = c.paused ∧ c'.batchSize = c.batchSize ∧
          c'.timeoutBlocks = c.timeoutBlocks ∧ c'.bridge = c.bridge) ∧
        (b'.proposal = b.proposal ∨ command = .accept ∧ b'.proposal = none ∧
          ∃ notBefore, b.proposal = some ⟨caller.sender, notBefore⟩)) := by
  cases turn with
  | propose config admin _ config' _ =>
      exact ⟨_, _, config, config', fun other => absurd admin other⟩
  | @accept _ _ _ p _ config proposed candidate _ config' proposal =>
      refine ⟨_, _, config, config', fun _ => ⟨⟨rfl, rfl, rfl, rfl⟩, .inr ⟨rfl, proposal, ?_⟩⟩⟩
      exact ⟨p.notBefore, proposed.trans (candidate ▸ rfl)⟩
  | withdraw config admin config' _ =>
      exact ⟨_, _, config, config', fun other => absurd admin other⟩
  | configure config admin config' _ _ _ =>
      exact ⟨_, _, config, config', fun other => absurd admin other⟩
  | rest config' proposal _ =>
      obtain ⟨c, config, _⟩ := configured.config_bounds
      exact ⟨c, c, config, config'.trans config, fun _ => ⟨⟨rfl, rfl, rfl, rfl⟩, .inl proposal⟩⟩

/-! ## Runs -/

/-- The recorded proposal was made by whoever is the administrator, and nothing administrative
happened since. -/
def Proposed (past : List Moment) (b : Book) : Prop :=
  ∀ p, b.proposal = some p → ∃ m c started, lastAdministered past = some m ∧
    b.config = some c ∧ m.Proposes c.admin p.candidate started ∧
      p.notBefore.nanos.toNat = started.nanos.toNat + 604800 * 1000000000

theorem lastAdministered_append (marked : m.administers = true) :
    lastAdministered (past ++ [m]) = some m := by
  simp [lastAdministered, marked]

theorem lastAdministered_append_quiet (quiet : m.administers = false) :
    lastAdministered (past ++ [m]) = lastAdministered past := by
  simp [lastAdministered, quiet]

/-- A step records its own proposal, drops the recorded one, or leaves it alone. -/
theorem Proposed.step (proposed : Proposed past b) (turn : Tenure b b' m.toStep) :
    Proposed (past ++ [m]) b' := by
  intro p recorded
  generalize step : m.toStep = e at turn
  cases turn with
  | @propose env caller candidate c notBefore r _ admin later config' proposal =>
      obtain rfl := Option.some.inj (proposal.symm.trans recorded)
      have marked : m.administers = true := by rw [step]; rfl
      refine ⟨m, c, env.time, lastAdministered_append marked, config', ?_,
        Instant.later?_eq_some later⟩
      exact ⟨env.height, caller.funds, r, by rw [step, ← admin]⟩
  | accept _ _ _ _ _ proposal =>
      rw [proposal] at recorded
      cases recorded
  | withdraw _ _ _ proposal =>
      rw [proposal] at recorded
      cases recorded
  | configure config _ config' same proposal quiet =>
      -- whoever proposed is still the administrator
      obtain ⟨last, c, started, latest, found, made, delay⟩ := proposed p (proposal ▸ recorded)
      rw [config, Option.some.injEq] at found
      subst found
      rw [← step] at quiet
      exact ⟨last, _, started, (lastAdministered_append_quiet quiet).trans latest, config',
        same ▸ made, delay⟩
  | rest config proposal quiet =>
      obtain ⟨last, c, started, latest, found, made, delay⟩ := proposed p (proposal ▸ recorded)
      rw [← step] at quiet
      exact ⟨last, c, started, (lastAdministered_append_quiet quiet).trans latest,
        config.trans found, made, delay⟩

/-- Who takes over was proposed by the administrator, and has waited. -/
theorem Proposed.takesOver (proposed : Proposed past b) (turn : Tenure b b' e)
    {candidate : String} {time : Instant} (takes : e.TakesOver candidate time) :
    ∃ proposal c started, lastAdministered past = some proposal ∧ b.config = some c ∧
      proposal.Proposes c.admin candidate started ∧
        started.nanos.toNat + 604800 * 1000000000 ≤ time.nanos.toNat := by
  obtain ⟨height, funds, r, rfl⟩ := takes
  cases turn with
  | accept _ recorded own due _ _ =>
      obtain ⟨last, c, started, latest, found, made, delay⟩ := proposed _ recorded
      dsimp only at own due
      subst own
      rw [UInt64.le_iff_toNat_le, delay] at due
      exact ⟨last, c, started, latest, found, made, due⟩
  | configure _ _ _ _ _ quiet => cases quiet
  | rest _ _ quiet => cases quiet

theorem Run.proposed (h : Run opening past s) : Proposed past s.book := by
  refine h.invariant (I := fun past _ b => Proposed past b) ?_ ?_
  · exact fun _ _ _ _ recorded => nomatch recorded
  · exact fun _ _ c reached proposed => proposed.step (reached.tenure c)

/-- The administrator is handed over along every run only as `HandOver` allows. -/
theorem Run.handOver (h : Run opening past s) : HandOver past := by
  constructor
  case admin =>
    intro m mem
    obtain ⟨s, call, reached, rfl⟩ := h.exists_call mem
    obtain ⟨c, c', config, config', changes⟩ :=
      (reached.tenure call).admin reached.sound.toConfigured
    exact ⟨c, c', reached.keeps.config_eq_ok.mpr config,
      (reached.call call).keeps.config_eq_ok.mpr config', changes⟩
  case timelocked =>
    rintro earlier m later rfl candidate time takes
    obtain ⟨s, call, before, rfl⟩ := h.exists_earlier
    have reached := before.reachable
    obtain ⟨proposal, c, started, latest, config, made, delay⟩ :=
      before.proposed.takesOver (reached.tenure call) takes
    exact ⟨proposal, c, started, latest, reached.keeps.config_eq_ok.mpr config, made, delay⟩
  case guarded =>
    intro m mem env caller command called
    obtain ⟨s, call, reached, rfl⟩ := h.exists_call mem
    obtain rfl : call = .command env caller command := called
    have keeps := (reached.call (.command env caller command)).keeps
    obtain ⟨c, c', config, config', others⟩ :=
      (reached.tenure (.command env caller command)).guarded reached.sound.toConfigured
    refine ⟨c, c', s.book.proposal, reached.keeps.config_eq_ok.mpr config,
      keeps.config_eq_ok.mpr config', reached.keeps.proposal?, fun other => ?_⟩
    rw [show (Moment.of s (.command env caller command)).after.proposal? = _ from keeps.proposal?,
      Except.ok.injEq, Except.ok.injEq]
    exact others other

/-! ## A first hand-over -/

/-- Seven days after the clock started. -/
def seventhDay : Instant :=
  ⟨604800000000000⟩

/-- The administrator proposes an heir as the clock starts. -/
def firstProposal : Call :=
  .command ⟨1, ⟨0⟩⟩ ⟨"admin", []⟩ (.propose "heir")

/-- The heir accepts seven days later. -/
def firstTakeOver : Call :=
  .command ⟨2, seventhDay⟩ ⟨"heir", []⟩ .accept

/-- A store after the proposal. -/
def withHeir (s : Store) : Store :=
  (firstProposal.run s).2

/-- The proposal and its acceptance, on a store. -/
def firstHandOver (s : Store) : List Moment :=
  [.of s firstProposal, .of (withHeir s) firstTakeOver]

theorem Run.firstHandOver (h : Run opening [] s) :
    Run opening (firstHandOver s) (firstTakeOver.run (withHeir s)).2 :=
  (h.call firstProposal).call firstTakeOver

theorem keeps_withHeir : ∃ c,
    (withHeir plainStore).Keeps { Book.founded c with proposal := some ⟨"heir", seventhDay⟩ } := by
  obtain ⟨r, done⟩ := founded_plainStore
  obtain ⟨c, _, _, admin, _, _, keeps⟩ := Bridge.run_setUp_configures done
  have recorded := keeps.saveProposal ⟨"heir", seventhDay⟩
  have proposes : (Bridge.propose ⟨1, ⟨0⟩⟩ ⟨"admin", []⟩ "heir").run plainStore = (.ok _, _) :=
    (Bridge.run_propose_eq_ok keeps).mpr
      ⟨c, seventhDay, rfl, admin.symm, by decide, by decide, rfl, recorded⟩
  have proposed : firstProposal.run plainStore = _ := Operation.run_atomic_eq_ok.mpr proposes
  refine ⟨c, ?_⟩
  rw [withHeir, proposed]
  exact recorded

/-- The heir takes over on a bridge that was just set up. -/
theorem takesOver_firstTakeOver :
    (Moment.of (withHeir plainStore) firstTakeOver).TakesOver "heir" seventhDay := by
  obtain ⟨c, keeps⟩ := keeps_withHeir
  have left := (keeps.saveConfig { c with admin := "heir" }).clearProposal
  have accepts : (Bridge.accept ⟨2, seventhDay⟩ ⟨"heir", []⟩).run (withHeir plainStore) =
      (.ok _, _) :=
    (Bridge.run_accept_eq_ok keeps).mpr ⟨c, _, rfl, rfl, rfl, UInt64.le_refl _, rfl, left⟩
  have accepted : firstTakeOver.run (withHeir plainStore) = _ :=
    Operation.run_atomic_eq_ok.mpr accepts
  exact ⟨2, [], _, congrArg (Step.mk firstTakeOver) (congrArg Prod.fst accepted)⟩

/-- The heir takes over because the administrator proposed the heir, seven days before. -/
theorem handOver_after_firstTakeOver : ∃ opening s,
    Run opening (firstHandOver plainStore) s ∧ HandOver (firstHandOver plainStore) ∧
      ∃ proposal c started, lastAdministered [.of plainStore firstProposal] = some proposal ∧
        (withHeir plainStore).config = .ok c ∧ proposal.Proposes c.admin "heir" started ∧
          started.nanos.toNat + 604800 * 1000000000 ≤ seventhDay.nanos.toNat := by
  obtain ⟨opening, done⟩ := founded_plainStore
  have run := (Run.founded done).firstHandOver
  have along := run.handOver
  obtain ⟨proposal, c, started, latest, config, made, delay⟩ :=
    along.timelocked [.of plainStore firstProposal] (.of (withHeir plainStore) firstTakeOver) []
      rfl "heir" seventhDay takesOver_firstTakeOver
  rw [Moment.before_of] at config
  exact ⟨opening, _, run, along, proposal, c, started, latest, config, made, delay⟩

end Chain

end BridgePool
