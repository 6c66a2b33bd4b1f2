import BridgePool.Proofs.Membership

/-!
# Lifecycle calls never get stuck

What settles funds or gives them back goes through in every reachable store unless there is a plain
reason against it. The end of a block always succeeds; a batch can be executed or abandoned exactly
while it is open; a waiting send can be taken back by its sender. `Refusal` lists every reason
there is, and `Reachable.neverStuck` says that these calls stop for nothing else: no loop over a
batch runs into a missing transfer, no debit finds the escrow short, no row fails to read.
-/

namespace BridgePool

open Operation

namespace Store

/-- The batch with this nonce is recorded and open. -/
def HasOpen (s : Store) (nonce : UInt64) : Prop :=
  ∃ batch, s.batch? nonce = .ok (some batch) ∧ batch.state = .open

/-- The transfer with this id waits in the pool, and is this sender's. -/
def HasWaiting (s : Store) (id : UInt64) (sender : String) : Prop :=
  ∃ t, s.transfer? id = .ok (some t) ∧ t.sender = sender ∧ t.state = .unbatched

/-- Why there is no open batch with this nonce. -/
inductive LacksOpen (s : Store) (nonce : UInt64) : Fault → Prop
  | absent : s.batch? nonce = .ok none → LacksOpen s nonce (.batchNotFound nonce)
  | ended {batch} : s.batch? nonce = .ok (some batch) → batch.state ≠ .open →
      LacksOpen s nonce (.alreadyTerminal nonce batch.state)

/-- Why this sender has no transfer with this id waiting in the pool. -/
inductive LacksWaiting (s : Store) (id : UInt64) (sender : String) : Fault → Prop
  | absent : s.transfer? id = .ok none → LacksWaiting s id sender (.transferNotFound id)
  | foreign {t} : s.transfer? id = .ok (some t) → t.sender ≠ sender →
      LacksWaiting s id sender .unauthorized
  | carried {t nonce} : s.transfer? id = .ok (some t) → t.sender = sender →
      t.state = .inBatch nonce → LacksWaiting s id sender (.alreadyBatched id nonce)

end Store

/-- The calls that settle funds or give them back. -/
inductive Call.InLifecycle : Call → Prop
  | hostEvent (event : HostEvent) : InLifecycle (.hostEvent event)
  | cancelBatch (env : Env) (caller : Caller) (nonce : UInt64) :
      InLifecycle (.command env caller (.cancelBatch nonce))
  | cancelSend (env : Env) (caller : Caller) (id : UInt64) :
      InLifecycle (.command env caller (.cancelSend id))

/-- A call goes through. -/
def Call.Succeeds (c : Call) (s : Store) : Prop :=
  ∃ r, (c.run s).1 = .ok r

/-- The faults that only a damaged store could lead to: an open batch that is not the one recorded
for its contract, an escrow that holds too little, a sum that has no room, a row that does not
read. -/
inductive Fault.Damage : Fault → Prop
  | outOfOrder (expected got : UInt64) : Damage (.outOfOrder expected got)
  | underfunded (denom : String) (locked needed : CoinAmount) :
      Damage (.underfunded denom locked needed)
  | token (fault : TokenFault) : Damage (.token fault)
  | store (fault : StoreFault) : Damage (.store fault)

/-- Every reason why a lifecycle call is refused. The end of a block has none. -/
inductive Refusal (s : Store) : Call → Fault → Prop
  | batchExecuted {nonce fault} : s.LacksOpen nonce fault →
      Refusal s (.hostEvent (.batchExecuted nonce)) fault
  | notAdmin {env caller nonce config} : s.config = .ok config → caller.sender ≠ config.admin →
      Refusal s (.command env caller (.cancelBatch nonce)) .unauthorized
  | cancelBatch {env caller nonce config fault} : s.config = .ok config →
      caller.sender = config.admin → s.LacksOpen nonce fault →
      Refusal s (.command env caller (.cancelBatch nonce)) fault
  | funded {env caller id} : ¬ caller.Bare →
      Refusal s (.command env caller (.cancelSend id))
        (.unexpectedFunds (caller.funds.filter (·.amount ≠ .zero)))
  | cancelSend {env caller id fault} : caller.Bare → s.LacksWaiting id caller.sender fault →
      Refusal s (.command env caller (.cancelSend id)) fault

/-- Lifecycle calls go through, or are refused for a reason that the store and the caller show. -/
structure Store.NeverStuck (s : Store) : Prop where
  /-- Every height can be reported. -/
  end_block : ∀ height, (Call.hostEvent (.endBlock height)).Succeeds s
  /-- A batch is executed exactly while it is open. -/
  batch_executed : ∀ nonce,
    (Call.hostEvent (.batchExecuted nonce)).Succeeds s ↔ s.HasOpen nonce
  /-- There is an administrator, who can abandon a batch exactly while it is open. -/
  cancel_batch : ∃ config, s.config = .ok config ∧ ∀ env caller nonce,
    caller.sender = config.admin →
      ((Call.command env caller (.cancelBatch nonce)).Succeeds s ↔ s.HasOpen nonce)
  /-- A sender can take back a transfer exactly while it waits. -/
  cancel_send : ∀ env caller id, caller.Bare →
    ((Call.command env caller (.cancelSend id)).Succeeds s ↔ s.HasWaiting id caller.sender)
  /-- The listed reasons are all there are, and each comes with its own fault. -/
  refused_iff : ∀ c : Call, c.InLifecycle → ∀ fault, (c.run s).1 = .error fault ↔ Refusal s c fault
  /-- No fault speaks of a damaged store. -/
  undamaged : ∀ c : Call, c.InLifecycle → ∀ fault, (c.run s).1 = .error fault → ¬ fault.Damage
  /-- A transfer is missing only for who asks for it by its id, never inside a batch. -/
  missing_only_asked : ∀ c : Call, c.InLifecycle →
    ∀ id, (c.run s).1 = .error (.transferNotFound id) →
      ∃ env caller, c = .command env caller (.cancelSend id) ∧ s.transfer? id = .ok none

variable {s : Store} {b : Book} {v : Vault} {c : Call} {fault : Fault} {caller : Caller}
  {id nonce : UInt64} {sender : String}

/-! ## Where operations stop -/

namespace Batch

/-- A batch that is not open does not load. -/
theorem run_loadOpen_of_lacks (lacks : s.LacksOpen nonce fault) :
    (run (loadOpen nonce) s).1 = .error fault := by
  have looked {found : Option Batch} (recorded : s.batch? nonce = .ok found) :
      run (read (·.batch? nonce)) s = (.ok found, s) :=
    run_read_eq_ok.mpr ⟨recorded, rfl⟩
  cases lacks with
  | absent missing =>
      rw [loadOpen, run_bind_of_ok (looked missing)]
      rfl
  | @ended batch recorded ended =>
      rw [loadOpen, run_bind_of_ok (looked recorded)]
      have terminal : ¬ batch.state.isTerminal = false := by
        simpa [BatchState.isTerminal] using ended
      exact run_bind_of_error (run_require_of_not terminal _)

theorem run_execute_of_lacks (lacks : v.store.LacksOpen nonce fault) :
    (run (execute nonce) v).1 = .error fault :=
  run_bind_of_error (run_loadOpen_of_lacks lacks)

theorem run_cancel_of_lacks (lacks : s.LacksOpen nonce fault) :
    (run (cancel nonce) s).1 = .error fault :=
  run_bind_of_error (run_loadOpen_of_lacks lacks)

end Batch

namespace Pool

theorem run_cancel_of_lacks (lacks : v.store.LacksWaiting id sender fault) :
    (run (cancel id sender) v).1 = .error fault := by
  have looked {found : Option Transfer} (kept : v.store.transfer? id = .ok found) :
      run (Vault.onStore (.read (·.transfer? id))) v = (.ok found, v) :=
    Vault.run_onStore_eq_ok.mpr ⟨run_read_eq_ok.mpr ⟨kept, rfl⟩, rfl⟩
  cases lacks with
  | absent missing =>
      rw [cancel, run_bind_of_ok (looked missing)]
      rfl
  | foreign kept foreign =>
      rw [cancel, run_bind_of_ok (looked kept)]
      exact run_bind_of_error (run_require_of_not foreign _)
  | carried kept own carried =>
      rw [cancel, run_bind_of_ok (looked kept)]
      dsimp only
      rw [run_bind_of_ok ((run_require_eq_ok (u := ())).mpr ⟨own, rfl⟩), carried]
      rfl

end Pool

/-- A lifecycle call stops for each of the listed reasons. -/
theorem Refusal.stops (refusal : Refusal s c fault) : (c.run s).1 = .error fault := by
  rw [Call.run, run_atomic_fst]
  cases refusal with
  | batchExecuted lacks =>
      exact run_bind_of_error (Vault.run_withEscrow_of_error (Batch.run_execute_of_lacks lacks))
  | @notAdmin _ caller _ _ config foreign =>
      have stopped : (run (Bridge.adminConfig caller) s).1 = .error .unauthorized := by
        rw [Bridge.adminConfig, run_bind_of_ok (run_read_eq_ok.mpr ⟨config, rfl⟩)]
        exact run_bind_of_error (run_require_of_not foreign _)
      exact run_bind_of_error stopped
  | @cancelBatch _ caller nonce config _ found admin lacks =>
      have passed : run (Bridge.adminConfig caller) s = (.ok config, s) := by
        rw [Bridge.adminConfig, run_bind_of_ok (run_read_eq_ok.mpr ⟨found, rfl⟩),
          run_bind_of_ok ((run_require_eq_ok (u := ())).mpr ⟨admin, rfl⟩)]
        rfl
      show (run (Bridge.cancelBatch caller nonce) s).1 = _
      rw [Bridge.cancelBatch, run_bind_of_ok passed]
      exact run_bind_of_error (Batch.run_cancel_of_lacks lacks)
  | @funded _ caller _ funded =>
      have left : (Escrow.funded caller.sender caller.funds).leftover ≠ [] :=
        fun bare => funded (Caller.bare_iff.mpr bare)
      exact run_bind_of_error (Vault.run_withEscrow_of_error
        (run_bind_of_error (Vault.run_ensureConsumed_of_ne left)))
  | @cancelSend _ caller id _ bare lacks =>
      have consumed : run Vault.ensureConsumed ⟨s, .funded caller.sender caller.funds⟩ =
          (.ok (), ⟨s, .funded caller.sender caller.funds⟩) :=
        Vault.run_ensureConsumed_eq_ok.mpr ⟨Caller.bare_iff.mp bare, rfl⟩
      refine run_bind_of_error (Vault.run_withEscrow_of_error ?_)
      rw [run_bind_of_ok consumed]
      exact Pool.run_cancel_of_lacks lacks

/-! ## Where calls go through -/

namespace Store.Keeps

theorem hasOpen_or_lacks (h : s.Keeps b) (nonce : UInt64) :
    s.HasOpen nonce ∨ ∃ fault, s.LacksOpen nonce fault := by
  have looked := h.batch? nonce
  cases recorded : b.batch nonce with
  | none => exact .inr ⟨_, .absent (recorded ▸ looked)⟩
  | some batch =>
      rw [recorded] at looked
      by_cases opened : batch.state = .open
      · exact .inl ⟨batch, looked, opened⟩
      · exact .inr ⟨_, .ended looked opened⟩

theorem hasWaiting_or_lacks (h : s.Keeps b) (id : UInt64) (sender : String) :
    s.HasWaiting id sender ∨ ∃ fault, s.LacksWaiting id sender fault := by
  have looked := h.transfer? id
  cases kept : b.transfer id with
  | none => exact .inr ⟨_, .absent (kept ▸ looked)⟩
  | some t =>
      rw [kept] at looked
      by_cases own : t.sender = sender
      · cases state : t.state with
        | unbatched => exact .inl ⟨t, looked, own, state⟩
        | inBatch nonce => exact .inr ⟨_, .carried looked own state⟩
      · exact .inr ⟨_, .foreign looked own⟩

theorem batch_of_hasOpen (h : s.Keeps b) (found : s.HasOpen nonce) :
    ∃ batch, b.batch nonce = some batch ∧ batch.state = .open := by
  obtain ⟨batch, looked, opened⟩ := found
  rw [h.batch?, Except.ok.injEq] at looked
  exact ⟨batch, looked, opened⟩

theorem endBlock_succeeds (h : s.Keeps b) (sound : b.Sound) (height : UInt64) :
    (Call.hostEvent (.endBlock height)).Succeeds s := by
  obtain ⟨_, _, _, _, _, _, done, _⟩ := Bridge.run_endBlock h sound height
  exact ⟨_, congrArg Prod.fst (run_atomic_eq_ok.mpr done)⟩

theorem batchExecuted_succeeds (h : s.Keeps b) (sound : b.Sound) (found : s.HasOpen nonce) :
    (Call.hostEvent (.batchExecuted nonce)).Succeeds s := by
  obtain ⟨batch, recorded, opened⟩ := h.batch_of_hasOpen found
  obtain ⟨ts, kept⟩ := Batch.exists_carried sound recorded opened
  obtain ⟨v, _, keeps, _⟩ := Batch.run_execute (v := ⟨s, .unfunded ""⟩) h sound recorded opened kept
  have done := (Bridge.run_batchExecuted_eq_ok h sound).mpr
    ⟨batch, ts, recorded, opened, kept, rfl, keeps⟩
  exact ⟨_, congrArg Prod.fst (run_atomic_eq_ok.mpr done)⟩

theorem cancelBatch_succeeds (h : s.Keeps b) (sound : b.Sound) {config : Config}
    (configured : s.config = .ok config) (admin : caller.sender = config.admin)
    (found : s.HasOpen nonce) (env : Env) :
    (Call.command env caller (.cancelBatch nonce)).Succeeds s := by
  obtain ⟨batch, recorded, opened⟩ := h.batch_of_hasOpen found
  obtain ⟨s', _, keeps⟩ := Batch.run_returnToPool .cancelled h sound recorded opened
  have done := (Bridge.run_cancelBatch_eq_ok h sound).mpr
    ⟨config, batch, h.config_eq_ok.mp configured, admin, recorded, opened, rfl, keeps⟩
  exact ⟨_, congrArg Prod.fst (run_atomic_eq_ok.mpr done)⟩

theorem cancelSend_succeeds (h : s.Keeps b) (sound : b.Sound) (bare : caller.Bare)
    (found : s.HasWaiting id caller.sender) (env : Env) :
    (Call.command env caller (.cancelSend id)).Succeeds s := by
  obtain ⟨t, looked, own, waits⟩ := found
  rw [h.transfer?, Except.ok.injEq] at looked
  obtain ⟨s', keeps⟩ := Pool.exists_keeps_refund h sound looked
  have done := (Bridge.run_cancelSend_eq_ok h sound).mpr
    ⟨t, looked, own, waits, Caller.bare_iff.mp bare, rfl, keeps⟩
  exact ⟨_, congrArg Prod.fst (run_atomic_eq_ok.mpr done)⟩

end Store.Keeps

/-! ## All together -/

theorem Call.Succeeds.not_refused (done : c.Succeeds s) : ¬ Refusal s c fault := by
  intro refusal
  obtain ⟨r, answer⟩ := done
  rw [refusal.stops] at answer
  cases answer

/-- A lifecycle call goes through unless there is a reason against it. -/
theorem Call.InLifecycle.succeeds_or_refused (lifecycle : c.InLifecycle) (h : s.Keeps b)
    (sound : b.Sound) : c.Succeeds s ∨ ∃ fault, Refusal s c fault := by
  cases lifecycle with
  | hostEvent event =>
      cases event with
      | endBlock height => exact .inl (h.endBlock_succeeds sound height)
      | batchExecuted nonce =>
          rcases h.hasOpen_or_lacks nonce with found | ⟨fault, lacks⟩
          · exact .inl (h.batchExecuted_succeeds sound found)
          · exact .inr ⟨fault, .batchExecuted lacks⟩
  | cancelBatch env caller nonce =>
      obtain ⟨config, found, _⟩ := sound.config_bounds
      have configured := h.config_eq_ok.mpr found
      by_cases admin : caller.sender = config.admin
      · rcases h.hasOpen_or_lacks nonce with found | ⟨fault, lacks⟩
        · exact .inl (h.cancelBatch_succeeds sound configured admin found env)
        · exact .inr ⟨fault, .cancelBatch configured admin lacks⟩
      · exact .inr ⟨_, .notAdmin configured admin⟩
  | cancelSend env caller id =>
      by_cases bare : caller.Bare
      · rcases h.hasWaiting_or_lacks id caller.sender with found | ⟨fault, lacks⟩
        · exact .inl (h.cancelSend_succeeds sound bare found env)
        · exact .inr ⟨fault, .cancelSend bare lacks⟩
      · exact .inr ⟨_, .funded bare⟩

theorem Call.InLifecycle.error_iff (lifecycle : c.InLifecycle) (h : s.Keeps b) (sound : b.Sound) :
    (c.run s).1 = .error fault ↔ Refusal s c fault := by
  constructor
  · intro stopped
    rcases lifecycle.succeeds_or_refused h sound with ⟨r, answer⟩ | ⟨other, refusal⟩
    · rw [stopped] at answer
      cases answer
    · rw [refusal.stops] at stopped
      exact Except.error.inj stopped ▸ refusal
  · exact Refusal.stops

theorem Refusal.not_damage (refusal : Refusal s c fault) : ¬ fault.Damage := by
  intro damage
  cases refusal with
  | batchExecuted lacks => cases lacks <;> cases damage
  | notAdmin => cases damage
  | cancelBatch _ _ lacks => cases lacks <;> cases damage
  | funded => cases damage
  | cancelSend _ lacks => cases lacks <;> cases damage

theorem Refusal.asked_of_missing (refusal : Refusal s c (.transferNotFound id)) :
    ∃ env caller, c = .command env caller (.cancelSend id) ∧ s.transfer? id = .ok none := by
  cases refusal with
  | batchExecuted lacks => cases lacks
  | cancelBatch _ _ lacks => cases lacks
  | cancelSend _ lacks =>
      cases lacks with
      | absent missing => exact ⟨_, _, rfl, missing⟩

/-- In every reachable store, lifecycle calls go through or are refused for a listed reason. -/
theorem Reachable.neverStuck (h : Reachable s) : s.NeverStuck := by
  have keeps := h.keeps
  have sound := h.sound
  constructor
  case end_block => exact keeps.endBlock_succeeds sound
  case batch_executed =>
    intro nonce
    constructor
    · intro done
      exact (keeps.hasOpen_or_lacks nonce).resolve_right fun ⟨_, lacks⟩ =>
        done.not_refused (.batchExecuted lacks)
    · exact keeps.batchExecuted_succeeds sound
  case cancel_batch =>
    obtain ⟨config, found, _⟩ := sound.config_bounds
    have configured := keeps.config_eq_ok.mpr found
    refine ⟨config, configured, fun env caller nonce admin => ⟨fun done => ?_, fun found => ?_⟩⟩
    · exact (keeps.hasOpen_or_lacks nonce).resolve_right fun ⟨_, lacks⟩ =>
        done.not_refused (.cancelBatch configured admin lacks)
    · exact keeps.cancelBatch_succeeds sound configured admin found env
  case cancel_send =>
    intro env caller id bare
    constructor
    · intro done
      exact (keeps.hasWaiting_or_lacks id caller.sender).resolve_right fun ⟨_, lacks⟩ =>
        done.not_refused (.cancelSend bare lacks)
    · exact fun found => keeps.cancelSend_succeeds sound bare found env
  case refused_iff => exact fun c lifecycle fault => lifecycle.error_iff keeps sound
  case undamaged =>
    intro c lifecycle fault stopped
    exact ((lifecycle.error_iff keeps sound).mp stopped).not_damage
  case missing_only_asked =>
    intro c lifecycle id stopped
    exact ((lifecycle.error_iff keeps sound).mp stopped).asked_of_missing

/-- After the first request, the first batch can be executed and a second one cannot. -/
theorem neverStuck_after_firstRequest :
    ∃ s : Store, Reachable s ∧ s.NeverStuck ∧
      (Call.hostEvent (.endBlock 8)).Succeeds s ∧
      (Call.hostEvent (.batchExecuted 1)).Succeeds s ∧
      ((Call.hostEvent (.batchExecuted 2)).run s).1 = .error (.batchNotFound 2) := by
  obtain ⟨c, s, reached, keeps⟩ := Chain.run_firstRequest
  have never := reached.neverStuck
  have recorded : s.batch? 1 = .ok (some (Chain.firstBatch c)) := keeps.batch? 1
  have absent : s.batch? 2 = .ok none := keeps.batch? 2
  refine ⟨s, reached, never, never.end_block 8, ?_, ?_⟩
  · exact (never.batch_executed 1).mpr ⟨_, recorded, rfl⟩
  · exact (never.refused_iff _ (.hostEvent _) _).mpr (.batchExecuted (.absent absent))

end BridgePool
