import BridgePool.Proofs.Membership
import BridgePool.Proofs.Settlement

/-!
# The bank balance of a run

What the bank holds for the bridge is what came with successful commands, less what the bridge
asked the bank to send or to burn. A send locks all that comes with it, and a cancellation takes
nothing; the other commands do not look at what comes with them. So the bank holds what the ledger
says and, on top of it, the coins that came with those other commands (`Run.solvency`). A request
for a batch with a coin attached shows that these coins stay behind
(`Run.exists_coin_left_behind`).
-/

namespace BridgePool

/-- A command that refuses coins it does not lock. -/
def Command.checksFunds : Command → Bool
  | .send .. => true
  | .cancelSend _ => true
  | _ => false

namespace Chain

namespace Step

/-- What comes with a command that succeeds. -/
def received (denom : String) : Step → Nat
  | ⟨.command _ caller _, .ok _⟩ => Coin.total denom caller.funds
  | _ => 0

/-- What comes with a command that succeeds without a look at it. -/
def stray (denom : String) : Step → Nat
  | ⟨.command _ caller command, .ok _⟩ =>
    if command.checksFunds then 0 else Coin.total denom caller.funds
  | _ => 0

/-- What a step takes out of the bank. -/
def paid (denom : String) (e : Step) : Nat :=
  e.refunded denom + e.burned denom

theorem stray_send (denom : String) (env : Env) (caller : Caller) (destination : String)
    (amount fee : Coin) (answer : Except Fault Response) :
    stray denom ⟨.command env caller (.send destination amount fee), answer⟩ = 0 := by
  cases answer <;> rfl

theorem stray_hostEvent (denom : String) (event : HostEvent) (answer : Except Fault Response) :
    stray denom ⟨.hostEvent event, answer⟩ = 0 := rfl

/-- The step is a command that succeeded without a look at the coins of this caller. -/
def Unchecked (e : Step) (caller : Caller) : Prop :=
  ∃ env command r, e = ⟨.command env caller command, .ok r⟩ ∧ command.checksFunds = false

end Step

/-- What the bank holds for the bridge, when no coins came with the set-up. -/
def balance (opening : Response) (run : List Moment) (denom : String) : Int :=
  (run.map (·.received denom)).sum -
    ((opening.messages.map fun m => m.refunded denom + m.burned denom).sum +
      (run.map (·.paid denom)).sum : Nat)

/-- Where the coins of a run are. -/
structure Solvency (opening : Response) (run : List Moment) (s : Store) : Prop where
  /-- Each step locks what comes with it, but for the coins that it does not look at. -/
  step_locks : ∀ m ∈ run, ∀ denom, ∃ held held', m.before.locked denom = .ok held ∧
    m.after.locked denom = .ok held' ∧
      held'.val + m.paid denom + m.stray denom = held.val + m.received denom
  /-- The bank holds what the ledger says and the coins that nothing looked at. -/
  balance_eq : ∀ denom, ∃ held, s.locked denom = .ok held ∧
    balance opening run denom = held.val + (run.map (·.stray denom)).sum
  /-- It holds just what the ledger says when no coins came with unchecked commands, and only
  then. -/
  exact_iff : (∀ denom, ∃ held, s.locked denom = .ok held ∧
      balance opening run denom = held.val) ↔
    ∀ m ∈ run, ∀ caller, m.Unchecked caller → caller.Bare

end Chain

/-! ## One step -/

namespace Chain

variable {s : Store} {b : Book} {run : List Moment} {opening : Response}

/-- A send locks all that comes with it. -/
theorem total_of_sends {caller : Caller} {destination : String} {amount fee : Coin} {t : Transfer}
    (sends : b.Sends caller destination amount fee t) (denom : String) :
    Coin.total denom caller.funds = t.share denom := by
  obtain ⟨left, taken, consumed⟩ := sends.attached
  have bare : ∀ coin ∈ left, coin.amount = .zero := by
    simpa [List.filter_eq_nil_iff] using consumed
  rw [Coin.total_takeOut taken, Coin.total_of_empty bare, total_coin sends.fits, Nat.add_zero]

/-- What comes with a command is taken in by the pool, or the command does not look at it. -/
theorem received_of_outcome {c : Call} {r : Response} {ds : List Deed} (outcome : Outcome b c r ds)
    (denom : String) :
    Step.received denom ⟨c, .ok r⟩ =
      Step.accepted denom ⟨c, .ok r⟩ + Step.stray denom ⟨c, .ok r⟩ := by
  cases outcome with
  | send sends =>
      rw [accepted_of_sends sends, ← total_of_sends sends]
      rfl
  | cancelSend _ bare => exact Coin.total_of_empty (Caller.bare_iff.mpr bare)
  | endBlock => rfl
  | batchExecuted => rfl
  | upgrade => rfl
  | _ => exact (Nat.zero_add _).symm

theorem received_eq (h : s.Keeps b) (sound : b.Sound) (c : Call) (denom : String) :
    Step.received denom ⟨c, (c.run s).1⟩ =
      Step.accepted denom ⟨c, (c.run s).1⟩ + Step.stray denom ⟨c, (c.run s).1⟩ := by
  rcases ran : c.run s with ⟨fault | r, s'⟩
  · rw [accepted_of_refused (e := ⟨c, .error fault⟩) nofun]
    cases c <;> rfl
  · obtain ⟨ds, b', outcome, _⟩ := Call.run_ok h sound ran
    exact received_of_outcome outcome denom

/-- What a step leaves in the ledger. -/
theorem held_eq (h : Reachable s) (c : Call) (denom : String) :
    (c.run s).2.book.locked.held denom + Step.paid denom ⟨c, (c.run s).1⟩ +
        Step.stray denom ⟨c, (c.run s).1⟩ =
      s.book.locked.held denom + Step.received denom ⟨c, (c.run s).1⟩ := by
  have moved := (h.turn c).worth_eq h.sound denom
  have took := received_eq h.keeps h.sound c denom
  rw [← (h.call c).sound.held_eq, ← h.sound.held_eq] at moved
  rw [Step.paid]
  omega

/-! ## A run -/

/-- What came with the commands of a run was taken in, or nothing looked at it. -/
theorem Run.received_eq (h : Run opening run s) (denom : String) :
    (run.map (·.received denom)).sum =
      (run.map (·.accepted denom)).sum + (run.map (·.stray denom)).sum := by
  rw [← List.sum_map_add]
  refine congrArg List.sum (List.map_congr_left fun m mem => ?_)
  obtain ⟨s, c, reached, rfl⟩ := h.exists_call mem
  exact Chain.received_eq reached.keeps reached.sound c denom

theorem Run.balance_eq (h : Run opening run s) (denom : String) :
    balance opening run denom = s.book.worth denom + (run.map (·.stray denom)).sum := by
  have received := h.received_eq denom
  have held := h.accounts.balance denom
  have paid : (run.map (·.paid denom)).sum =
      (run.map (·.refunded denom)).sum + (run.map (·.burned denom)).sum := List.sum_map_add
  rw [balance, h.opening_silent, List.map_nil, List.sum_nil, paid, received, held]
  omega

/-- Nothing strays exactly when the unchecked commands come bare. -/
theorem Step.stray_eq_zero_iff {e : Step} :
    (∀ denom, e.stray denom = 0) ↔ ∀ caller, e.Unchecked caller → caller.Bare := by
  constructor
  · rintro nothing caller ⟨env, command, r, rfl, unchecked⟩
    apply Coin.empty_iff.mpr
    intro denom
    simpa [stray, unchecked] using nothing denom
  · intro bare denom
    unfold stray
    split
    next env caller command r =>
      split
      next => rfl
      next unchecked =>
        exact Coin.total_of_empty (bare caller ⟨env, command, r, rfl, by simpa using unchecked⟩)
    next => rfl

/-- The bank holds what the ledger says, and the coins that came with commands that do not look at
them. -/
theorem Run.solvency (h : Run opening run s) : Solvency opening run s where
  step_locks m mem denom := by
    obtain ⟨s, c, reached, rfl⟩ := h.exists_call mem
    exact ⟨_, _, reached.keeps.locked denom, (reached.call c).keeps.locked denom,
      held_eq reached c denom⟩
  balance_eq denom := by
    refine ⟨_, h.reachable.keeps.locked denom, ?_⟩
    rw [h.balance_eq, ← h.reachable.sound.held_eq]
    rfl
  exact_iff := by
    have exact_iff_stray : (∀ denom, ∃ held, s.locked denom = .ok held ∧
        balance opening run denom = held.val) ↔
          ∀ denom, (run.map (·.stray denom)).sum = 0 := by
      refine forall_congr' fun denom => ?_
      simp only [h.reachable.keeps.locked, Except.ok.injEq, exists_eq_left', h.balance_eq,
        ← h.reachable.sound.held_eq]
      show _ = ((s.book.locked.held denom : Nat) : Int) ↔ _
      omega
    rw [exact_iff_stray]
    simp only [List.sum_eq_zero_iff_forall_eq_nat, List.forall_mem_map]
    constructor
    · exact fun nothing m mem => Step.stray_eq_zero_iff.mp fun denom => nothing denom m mem
    · exact fun bare denom m mem => Step.stray_eq_zero_iff.mpr (bare m mem) denom

/-- After the first send the bank holds its hundred and ten vouchers, as the ledger says. -/
theorem solvency_after_firstSend :
    ∃ opening s, Run opening [.of plainStore firstSend] s ∧
      Solvency opening [.of plainStore firstSend] s ∧
      (∃ held, s.locked (Denom.ofContract .zero) = .ok held ∧ held.val = 110) ∧
      balance opening [.of plainStore firstSend] (Denom.ofContract .zero) = 110 := by
  obtain ⟨opening, done⟩ := founded_plainStore
  have run : Run opening [.of plainStore firstSend] _ := (Run.founded done).call firstSend
  have solvency := run.solvency
  obtain ⟨held, locked, exactly⟩ := solvency.balance_eq (Denom.ofContract .zero)
  obtain ⟨_, _, _, _, _, _, keeps⟩ := run_firstSend
  have amount : held.val = 110 := by
    rw [keeps.locked, Except.ok.injEq] at locked
    rw [← locked]
    show Holdings.held ((Book.founded _).accept firstTransfer firstSum).locked _ = 110
    exact Holdings.held_update _ _ _ _
  refine ⟨opening, _, run, solvency, ⟨held, locked, amount⟩, exactly.trans ?_⟩
  rw [amount, List.map_singleton, List.sum_singleton, Moment.of, firstSend, Step.stray_send]
  rfl

/-! ## A coin that stays behind -/

/-- A request for a batch with five coins attached. -/
def strayRequest : Call :=
  .command ⟨5, ⟨0⟩⟩ ⟨"relayer", [⟨"uatom", ⟨5, by decide⟩⟩]⟩
    (.requestBatch Address.zero.spelling)

/-- A run of the first send and the seventh block, with nothing astray so far. -/
theorem exists_run_firstHeight : ∃ opening past s c, Run opening past s ∧ c.InBounds ∧
    c.paused = false ∧ s.Keeps (firstBook c) ∧
      ∀ denom, (past.map (·.stray denom)).sum = 0 := by
  obtain ⟨opening, done⟩ := founded_plainStore
  obtain ⟨c, bounds, active, keeps⟩ := exists_firstHeight
  refine ⟨opening, _, _, c, ((Run.founded done).call firstSend).call firstHeight, bounds, active,
    keeps, fun denom => ?_⟩
  have sent (answer : Except Fault Response) : Step.stray denom ⟨firstSend, answer⟩ = 0 :=
    Step.stray_send _ _ _ _ _ _ _
  have reported (answer : Except Fault Response) : Step.stray denom ⟨firstHeight, answer⟩ = 0 :=
    Step.stray_hostEvent _ _ _
  simp only [List.nil_append, List.cons_append, List.map_cons, List.map_nil, List.sum_cons,
    List.sum_nil, Moment.of, sent, reported, Nat.add_zero]

/-- The request succeeds, and the bank holds five coins that the ledger does not know. -/
theorem Run.exists_coin_left_behind :
    ∃ opening run s, Run opening run s ∧ (∃ m ∈ run, ∃ r, m.toStep = ⟨strayRequest, .ok r⟩) ∧
      ∃ held, s.locked "uatom" = .ok held ∧ balance opening run "uatom" = held.val + 5 := by
  obtain ⟨opening, past, s, c, run, bounds, active, keeps, clean⟩ := exists_run_firstHeight
  obtain ⟨r, s', ran, _⟩ := run_request bounds active run.reachable keeps
    ⟨"relayer", [⟨"uatom", ⟨5, by decide⟩⟩]⟩
  have answer : (Moment.of s strayRequest).toStep = ⟨strayRequest, .ok r⟩ :=
    congrArg (Step.mk strayRequest) (congrArg Prod.fst ran)
  have run' := run.call strayRequest
  have held := run'.balance_eq "uatom"
  rw [List.map_append, List.sum_append, clean, List.map_singleton, answer, List.sum_singleton,
    ← run'.reachable.sound.held_eq] at held
  exact ⟨opening, _, _, run', ⟨_, List.mem_append_right _ List.mem_cons_self, r, answer⟩, _,
    run'.reachable.keeps.locked "uatom", held⟩

end Chain

end BridgePool
