import BridgePool.Proofs.Batch.Lifecycle
import BridgePool.Proofs.Book.Moves

/-!
# Commands and host events on a book

What each command and each host event needs of a sound book to succeed, and what it leaves. The
conditions on the caller and the arguments are those of `Outcome`.
-/

namespace BridgePool.Bridge

open Operation

variable {b : Book} {s s' : Store} {c : Config} {r : Response} {caller : Caller} {env : Env}

/-! ## Guards -/

theorem run_activeConfig_eq_ok (h : s.Keeps b) :
    run activeConfig s = (.ok c, s') ↔ b.config = some c ∧ c.paused = false ∧ s' = s := by
  simp only [activeConfig, run_bind_eq_ok, run_read_eq_ok, run_require_eq_ok, run_pure_eq_ok,
    h.config_eq_ok]
  constructor
  · rintro ⟨_, _, ⟨found, rfl⟩, _, _, ⟨active, rfl⟩, rfl, rfl⟩
    exact ⟨found, active, rfl⟩
  · rintro ⟨found, active, rfl⟩
    exact ⟨c, s', ⟨found, rfl⟩, (), s', ⟨active, rfl⟩, rfl, rfl⟩

theorem run_adminConfig_eq_ok (h : s.Keeps b) :
    run (adminConfig caller) s = (.ok c, s') ↔
      b.config = some c ∧ caller.sender = c.admin ∧ s' = s := by
  simp only [adminConfig, run_bind_eq_ok, run_read_eq_ok, run_require_eq_ok, run_pure_eq_ok,
    h.config_eq_ok]
  constructor
  · rintro ⟨_, _, ⟨found, rfl⟩, _, _, ⟨admin, rfl⟩, rfl, rfl⟩
    exact ⟨found, admin, rfl⟩
  · rintro ⟨found, admin, rfl⟩
    exact ⟨c, s', ⟨found, rfl⟩, (), s', ⟨admin, rfl⟩, rfl, rfl⟩

theorem run_address_eq_ok {text : String} {a : Address} :
    run (address text) s = (.ok a, s') ↔ Address.parse text = .ok a ∧ s' = s :=
  run_lift_eq_ok

/-! ## Sends -/

theorem run_send_eq_ok (h : s.Keeps b) {destination : String} {amount fee : Coin} :
    run (send caller destination amount fee) s = (.ok r, s') ↔
      ∃ t, ∃ sum : CoinAmount, b.Sends caller destination amount fee t ∧
        sum.val = b.locked.held t.token.denom + t.worth ∧
        r = sendAccepted caller destination amount fee t.id [] ∧ s'.Keeps (b.accept t sum) := by
  simp only [send, run_bind_eq_ok, run_activeConfig_eq_ok h, run_address_eq_ok, run_lift_eq_ok,
    run_pure_eq_ok, Prod.exists, Vault.run_withEscrow_eq_ok, Vault.run_ensureConsumed_eq_ok]
  constructor
  · rintro ⟨c, s, ⟨found, active, rfl⟩, receiver, s, ⟨parsed, rfl⟩, token, s, ⟨ofAmount, rfl⟩,
      feeToken, s, ⟨ofFee, rfl⟩, id, escrow, s', ⟨_, v, added, _, _, ⟨consumed, rfl⟩, rfl, rfl⟩,
      rfl, rfl⟩
    obtain ⟨t, made, positive, same, fits, next, room, _, ⟨left, taken, escrow⟩, sum, credited,
      keeps⟩ := (Pool.run_add_eq_ok (v := ⟨s, .funded caller.sender caller.funds⟩) h).mp added
    obtain rfl := made
    rw [escrow] at consumed
    refine ⟨_, sum, ⟨⟨c, found, active⟩, parsed, ofAmount, ⟨feeToken, ofFee, same, rfl⟩, next, room,
      rfl, rfl, positive, fits, left, taken, consumed⟩, credited, ?_, keeps⟩
    dsimp only at escrow
    subst escrow
    rfl
  · rintro ⟨t, sum, sends, credited, rfl, keeps⟩
    obtain ⟨c, found, active⟩ := sends.active
    obtain ⟨f, ofFee, same, feeOf⟩ := sends.fee
    obtain ⟨left, taken, consumed⟩ := sends.attached
    have made : t = Pool.sent caller.sender t.destination t.token f t.id :=
      Transfer.ext rfl sends.sender rfl rfl feeOf sends.waits
    let after : Escrow := { Escrow.funded caller.sender caller.funds with available := left }
    have added : run (Pool.add caller.sender t.destination t.token f)
        ⟨s, .funded caller.sender caller.funds⟩ = (.ok t.id, ⟨s', after⟩) :=
      (Pool.run_add_eq_ok h).mpr ⟨t, made, sends.positive, same, sends.fits, sends.id, sends.room,
        rfl, ⟨left, taken, rfl⟩, sum, credited, keeps⟩
    exact ⟨c, s, ⟨found, active, rfl⟩, t.destination, s, ⟨sends.destination, rfl⟩, t.token, s,
      ⟨sends.token, rfl⟩, f, s, ⟨ofFee, rfl⟩, t.id, after, s',
      ⟨t.id, _, added, (), _, ⟨consumed, rfl⟩, rfl, rfl⟩, rfl, rfl⟩

/-! ## Giving sends back -/

theorem run_cancelSend_eq_ok (h : s.Keeps b) (sound : b.Sound) {id : UInt64} :
    run (cancelSend caller id) s = (.ok r, s') ↔
      ∃ t, b.transfer id = some t ∧ t.sender = caller.sender ∧ t.state = .unbatched ∧
        caller.funds.filter (·.amount ≠ Amount.zero) = [] ∧
        r = sendCancelled id t.sender t.coin [.send t.sender [t.coin]] ∧
        s'.Keeps (b.refund t) := by
  simp only [cancelSend, run_bind_eq_ok, run_lift_eq_ok, run_pure_eq_ok, Prod.exists,
    Vault.run_withEscrow_eq_ok, Vault.run_ensureConsumed_eq_ok]
  constructor
  · rintro ⟨t, escrow, s', ⟨_, v, ⟨bare, rfl⟩, cancelled⟩, coin, _, ⟨held, rfl⟩, rfl, rfl⟩
    obtain ⟨kept, own, waits, keeps, requests⟩ :=
      (Pool.run_cancel_eq_ok (v := ⟨s, .funded caller.sender caller.funds⟩) h sound).mp cancelled
    obtain ⟨_, rfl⟩ := (Pool.heldCoin_eq_ok (sound.spelled kept)).mp held
    refine ⟨t, kept, own, waits, bare, ?_, keeps⟩
    dsimp only at requests
    subst requests
    rfl
  · rintro ⟨t, kept, own, waits, bare, rfl, keeps⟩
    let after : Escrow :=
      { Escrow.funded caller.sender caller.funds with messages := [.send t.sender [t.coin]] }
    have cancelled : run (Pool.cancel id caller.sender)
        ⟨s, .funded caller.sender caller.funds⟩ = (.ok t, ⟨s', after⟩) :=
      (Pool.run_cancel_eq_ok h sound).mpr ⟨kept, own, waits, keeps, rfl⟩
    have held := (Pool.heldCoin_eq_ok (sound.spelled kept)).mpr ⟨sound.fits kept, rfl⟩
    exact ⟨t, after, s', ⟨(), _, ⟨bare, rfl⟩, cancelled⟩, t.coin, s', ⟨held, rfl⟩, rfl, rfl⟩

/-! ## Batches -/

theorem run_requestBatch_eq_ok (h : s.Keeps b) (sound : b.Sound) {text : String} :
    run (requestBatch env text) s = (.ok r, s') ↔
      ∃ c contract batch, b.config = some c ∧ c.paused = false ∧
        Address.parse text = .ok contract ∧ b.height.getD 0 ≠ 0 ∧
        b.Gathers contract.raw c.batchSize.toNat batch ∧
        batch.timeout = saturatingAdd (b.height.getD 0) c.timeoutBlocks ∧
        batch.block = env.height ∧ r = batchRequested batch ∧ s'.Keeps (b.gather batch) := by
  simp only [requestBatch, run_bind_eq_ok, run_activeConfig_eq_ok h, run_address_eq_ok,
    run_read_eq_ok, run_require_eq_ok, run_pure_eq_ok]
  constructor
  · rintro ⟨c, s, ⟨found, active, rfl⟩, contract, s, ⟨parsed, rfl⟩, height, s, ⟨last, rfl⟩, _, s,
      ⟨observed, rfl⟩, batch, s', built, rfl, rfl⟩
    rw [h.observedHeight, Except.ok.injEq] at last
    obtain rfl := last
    obtain ⟨gathers, timeout, block, keeps⟩ := (Batch.run_build_eq_ok h sound.filed).mp built
    exact ⟨c, contract, batch, found, active, parsed, observed, gathers, timeout, block, rfl, keeps⟩
  · rintro ⟨c, contract, batch, found, active, parsed, observed, gathers, timeout, block, rfl, keeps⟩
    have built := (Batch.run_build_eq_ok h sound.filed).mpr ⟨gathers, timeout, block, keeps⟩
    exact ⟨c, s, ⟨found, active, rfl⟩, contract, s, ⟨parsed, rfl⟩, _, s,
      ⟨h.observedHeight, rfl⟩, (), s, ⟨observed, rfl⟩, batch, s', built, rfl, rfl⟩

theorem run_cancelBatch_eq_ok (h : s.Keeps b) (sound : b.Sound) {nonce : UInt64} :
    run (cancelBatch caller nonce) s = (.ok r, s') ↔
      ∃ c batch, b.config = some c ∧ caller.sender = c.admin ∧ b.batch nonce = some batch ∧
        batch.state = .open ∧ r = batchCancelled nonce { batch with state := .cancelled } ∧
        s'.Keeps (b.disband batch .cancelled) := by
  simp only [cancelBatch, run_bind_eq_ok, run_adminConfig_eq_ok h, run_pure_eq_ok]
  constructor
  · rintro ⟨c, s, ⟨found, admin, rfl⟩, closed, s', cancelled, rfl, rfl⟩
    obtain ⟨batch, recorded, opened, rfl, keeps⟩ := (Batch.run_cancel_eq_ok h sound).mp cancelled
    exact ⟨c, batch, found, admin, recorded, opened, rfl, keeps⟩
  · rintro ⟨c, batch, found, admin, recorded, opened, rfl, keeps⟩
    exact ⟨c, s, ⟨found, admin, rfl⟩, _, s',
      (Batch.run_cancel_eq_ok h sound).mpr ⟨batch, recorded, opened, rfl, keeps⟩, rfl, rfl⟩

theorem run_batchExecuted_eq_ok (h : s.Keeps b) (sound : b.Sound) {nonce : UInt64} :
    run (batchExecuted nonce) s = (.ok r, s') ↔
      ∃ batch ts, b.batch nonce = some batch ∧ batch.state = .open ∧
        batch.ids.map b.transfer = ts.map some ∧
        r = batchSettled nonce { batch with state := .executed }
          (ts.map fun t => .burn [t.coin]) ∧
        s'.Keeps (b.settle batch ts) := by
  simp only [batchExecuted, run_bind_eq_ok, run_pure_eq_ok, Prod.exists,
    Vault.run_withEscrow_eq_ok]
  constructor
  · rintro ⟨closed, escrow, s', executed, rfl, rfl⟩
    obtain ⟨batch, ts, recorded, opened, kept, rfl, keeps, requests⟩ :=
      (Batch.run_execute_eq_ok (v := ⟨s, .unfunded ""⟩) h sound).mp executed
    refine ⟨batch, ts, recorded, opened, kept, ?_, keeps⟩
    dsimp only at requests
    subst requests
    rfl
  · rintro ⟨batch, ts, recorded, opened, kept, rfl, keeps⟩
    let after : Escrow := { Escrow.unfunded "" with messages := ts.map Batch.burning }
    exact ⟨_, after, s', (Batch.run_execute_eq_ok h sound).mpr
      ⟨batch, ts, recorded, opened, kept, rfl, keeps, rfl⟩, rfl, rfl⟩

/-- The maximum of words is that of their order. -/
instance lawfulOrderMax_word : Std.LawfulOrderMax UInt64 where
  max_eq_or m n := show (if m ≤ n then n else m) = m ∨ _ from (ite_eq_or_eq ..).symm
  max_le_iff m n bound := by
    show (if m ≤ n then n else m) ≤ bound ↔ _
    split
    next below => exact (and_iff_right_of_imp (UInt64.le_trans below)).symm
    next above =>
      have below := UInt64.le_of_lt (UInt64.not_le.mp above)
      exact (and_iff_left_of_imp (UInt64.le_trans below)).symm

/-- The end of a block always succeeds. -/
theorem run_endBlock (h : s.Keeps b) (sound : b.Sound) (height : UInt64) :
    ∃ now bs s' b', now = max (b.height.getD 0) height ∧ b.Expires now bs ∧
      run (endBlock height) s = (.ok (blockEnded now bs), s') ∧
      s'.Keeps b' ∧ Moves b (.observe now :: bs.map (.disband · .timedOut)) b' := by
  have observed := h.saveHeight (max (b.height.getD 0) height)
  have rises : b.height.getD 0 ≤ max (b.height.getD 0) height := Std.left_le_max
  have first : Move b _ _ := .observe rises
  obtain ⟨bs, s', b', expires, pruned, keeps, moves⟩ :=
    Batch.run_prune observed (sound.move first) (max (b.height.getD 0) height)
  refine ⟨_, bs, s', b', rfl, ⟨expires.mem_iff, expires.ascending⟩, ?_, keeps, .next first moves⟩
  refine run_bind_eq_ok.mpr ⟨_, s, run_read_eq_ok.mpr ⟨h.observedHeight, rfl⟩,
    run_bind_eq_ok.mpr ⟨(), _, rfl, run_bind_eq_ok.mpr ⟨_, s', pruned, ?_⟩⟩⟩
  -- what the pruning gives is closed, which the answer does not tell
  rw [blockEnded, List.length_map, List.map_map]
  rfl

/-! ## Configuration -/

theorem run_changed_eq_ok {α : Type} {value : Option α} {check : α → Except Fault (Config → Config)}
    {report : α → String × String} {c c' : Config} {reported : List (String × String)} :
    run (changed value check report c) s = (.ok (c', reported), s') ↔
      s' = s ∧ (value = none ∧ c' = c ∧ reported = [] ∨
        ∃ a change, value = some a ∧ check a = .ok change ∧ c' = change c ∧
          reported = [report a]) := by
  cases value with
  | none => simp [changed, eq_comm, and_comm, and_assoc]
  | some a =>
      simp only [changed, run_bind_eq_ok, run_lift_eq_ok, run_pure_eq_ok, Prod.mk.injEq]
      constructor
      · rintro ⟨change, _, ⟨checked, rfl⟩, ⟨rfl, rfl⟩, rfl⟩
        exact ⟨rfl, .inr ⟨a, change, rfl, checked, rfl, rfl⟩⟩
      · rintro ⟨rfl, ⟨absent, _⟩ | ⟨_, change, given, checked, rfl, rfl⟩⟩
        · cases absent
        · obtain rfl := Option.some.inj given
          exact ⟨change, _, ⟨checked, rfl⟩, ⟨rfl, rfl⟩, rfl⟩

theorem run_setPaused_eq_ok (h : s.Keeps b) {paused : Bool} :
    run (setPaused caller paused) s = (.ok r, s') ↔
      ∃ c, b.config = some c ∧ caller.sender = c.admin ∧
        r = attributes [("method", if paused then "pause" else "unpause")] ∧
        s'.Keeps { b with config := some { c with paused } } := by
  simp only [setPaused, run_bind_eq_ok, run_adminConfig_eq_ok h, run_update_eq_ok, run_pure_eq_ok]
  constructor
  · rintro ⟨c, s, ⟨found, admin, rfl⟩, _, _, rfl, rfl, rfl⟩
    exact ⟨c, found, admin, rfl, h.saveConfig _⟩
  · rintro ⟨c, found, admin, rfl, keeps⟩
    exact ⟨c, s, ⟨found, admin, rfl⟩, (), _, rfl, rfl, (h.saveConfig _).eq_iff.mpr keeps⟩

theorem run_propose_eq_ok (h : s.Keeps b) {candidate : String} :
    run (propose env caller candidate) s = (.ok r, s') ↔
      ∃ c notBefore, b.config = some c ∧ caller.sender = c.admin ∧
        Account.check candidate = .ok candidate ∧
        env.time.later? Config.adminDelay = some notBefore ∧
        r = attributes
          [("method", "propose_admin"), ("new_admin", candidate),
            ("execute_after", Decimal.text notBefore.seconds)] ∧
        s'.Keeps { b with proposal := some ⟨candidate, notBefore⟩ } := by
  simp only [propose, run_bind_eq_ok, run_adminConfig_eq_ok h, run_lift_eq_ok]
  constructor
  · rintro ⟨c, s, ⟨found, admin, rfl⟩, a, s, ⟨checked, rfl⟩, done⟩
    obtain rfl := Account.eq_of_check checked
    split at done
    next => exact absurd done run_stop_eq_ok
    next notBefore later =>
    simp only [run_bind_eq_ok, run_update_eq_ok, run_pure_eq_ok] at done
    obtain ⟨_, _, rfl, rfl, rfl⟩ := done
    exact ⟨c, notBefore, found, admin, checked, later, rfl, h.saveProposal _⟩
  · rintro ⟨c, notBefore, found, admin, checked, later, rfl, keeps⟩
    refine ⟨c, s, ⟨found, admin, rfl⟩, candidate, s, ⟨checked, rfl⟩, ?_⟩
    rw [later]
    simp only [run_bind_eq_ok, run_update_eq_ok, run_pure_eq_ok]
    exact ⟨(), _, rfl, trivial, (h.saveProposal _).eq_iff.mpr keeps⟩

theorem run_accept_eq_ok (h : s.Keeps b) :
    run (accept env caller) s = (.ok r, s') ↔
      ∃ c p, b.config = some c ∧ b.proposal = some p ∧ caller.sender = p.candidate ∧
        p.notBefore.nanos ≤ env.time.nanos ∧
        r = attributes [("method", "accept_admin"), ("new_admin", p.candidate)] ∧
        s'.Keeps
          { b with config := some { c with admin := p.candidate }, proposal := none } := by
  have keeps_accept (c : Config) (p : Proposal) :
      ((s.saveConfig { c with admin := p.candidate }).clear .proposal).Keeps
        { b with config := some { c with admin := p.candidate }, proposal := none } :=
    (h.saveConfig _).clearProposal
  simp only [accept, run_bind_eq_ok, run_read_eq_ok, h.proposal?, Except.ok.injEq]
  constructor
  · rintro ⟨_, s, ⟨rfl, rfl⟩, done⟩
    split at done
    next => exact absurd done run_stop_eq_ok
    next p proposed =>
    simp only [run_bind_eq_ok, run_require_eq_ok, run_read_eq_ok, run_update_eq_ok,
      run_pure_eq_ok] at done
    obtain ⟨_, s, ⟨candidate, rfl⟩, _, s, ⟨due, rfl⟩, c, s, ⟨found, rfl⟩, _, _, rfl, _, _, rfl,
      rfl, rfl⟩ := done
    exact ⟨c, p, h.config_eq_ok.mp found, proposed, candidate, due, rfl, keeps_accept c p⟩
  · rintro ⟨c, p, found, proposed, candidate, due, rfl, keeps⟩
    refine ⟨_, s, ⟨rfl, rfl⟩, ?_⟩
    rw [proposed]
    simp only [run_bind_eq_ok, run_require_eq_ok, run_read_eq_ok, run_update_eq_ok,
      run_pure_eq_ok]
    exact ⟨(), s, ⟨candidate, rfl⟩, (), s, ⟨due, rfl⟩, c, s, ⟨h.config_eq_ok.mpr found, rfl⟩, (), _,
      rfl, (), _, rfl, trivial, (keeps_accept c p).eq_iff.mpr keeps⟩

theorem checked_eq_ok {ε α β : Type} {x : Except ε α} {wrap : ε → Fault} {f : α → β} {b : β} :
    (x.mapError wrap).map f = .ok b ↔ ∃ a, x = .ok a ∧ b = f a := by
  cases x with
  | error fault =>
      show Except.error _ = _ ↔ _
      simp
  | ok a =>
      show Except.ok (f a) = _ ↔ _
      simp [eq_comm]

/-- A change of parameters keeps them within their bounds. -/
theorem run_configure_ok (h : s.Keeps b) (sound : b.Sound) {batchSize : Option UInt32}
    {timeoutBlocks : Option UInt64} {bridge : Option String}
    (done : run (configure caller batchSize timeoutBlocks bridge) s = (.ok r, s')) :
    ∃ c c' reported, b.config = some c ∧ caller.sender = c.admin ∧
      c.Changed batchSize timeoutBlocks bridge c' ∧ c'.InBounds ∧
      r = attributes reported ∧ s'.Keeps { b with config := some c' } := by
  simp only [configure, run_bind_eq_ok, run_adminConfig_eq_ok h, run_update_eq_ok,
    run_pure_eq_ok, Prod.exists, run_changed_eq_ok] at done
  obtain ⟨c, s, ⟨found, admin, rfl⟩, c₁, size, _, ⟨rfl, sized⟩, c₂, timeout, _, ⟨rfl, timed⟩, c₃,
    text, _, ⟨rfl, bridged⟩, _, _, rfl, rfl, rfl⟩ := done
  have bounds := sound.bounds found
  -- each parameter that is given passes a check of its own, the others stay in bounds
  have size_change : c₁ = { c with batchSize := batchSize.getD c.batchSize } ∧ c₁.InBounds := by
    rcases sized with ⟨rfl, rfl, _⟩ | ⟨n, change, rfl, checked, rfl, _⟩
    · exact ⟨rfl, bounds⟩
    · obtain ⟨_, passed, rfl⟩ := checked_eq_ok.mp checked
      obtain ⟨positive, below⟩ := Config.checkBatchSize_eq_ok.mp passed
      exact ⟨rfl, positive, below, bounds.timeoutBlocks_pos⟩
  obtain ⟨rfl, within⟩ := size_change
  have timeout_change : c₂ = { c with
      batchSize := batchSize.getD c.batchSize
      timeoutBlocks := timeoutBlocks.getD c.timeoutBlocks } ∧ c₂.InBounds := by
    rcases timed with ⟨rfl, rfl, _⟩ | ⟨n, change, rfl, checked, rfl, _⟩
    · exact ⟨rfl, within⟩
    · obtain ⟨_, passed, rfl⟩ := checked_eq_ok.mp checked
      exact ⟨rfl, within.batchSize_pos, within.batchSize_le,
        Config.checkTimeoutBlocks_eq_ok.mp passed⟩
  obtain ⟨rfl, within⟩ := timeout_change
  refine ⟨c, c₃, _, found, admin, ?_, ?_, rfl, h.saveConfig c₃⟩
  · rcases bridged with ⟨rfl, rfl, _⟩ | ⟨text, change, rfl, checked, rfl, _⟩
    · exact ⟨rfl, rfl, rfl, rfl, rfl⟩
    · obtain ⟨a, parsed, rfl⟩ := checked_eq_ok.mp checked
      exact ⟨rfl, rfl, rfl, rfl, a, parsed, rfl⟩
  · rcases bridged with ⟨_, rfl, _⟩ | ⟨text, change, _, checked, rfl, _⟩
    · exact within
    · obtain ⟨a, _, rfl⟩ := checked_eq_ok.mp checked
      exact within.congr rfl rfl

theorem run_withdraw_eq_ok (h : s.Keeps b) :
    run (withdraw caller) s = (.ok r, s') ↔
      ∃ c, b.config = some c ∧ caller.sender = c.admin ∧
        r = attributes [("method", "cancel_admin_proposal")] ∧
        s'.Keeps { b with proposal := none } := by
  simp only [withdraw, run_bind_eq_ok, run_adminConfig_eq_ok h, run_update_eq_ok, run_pure_eq_ok]
  constructor
  · rintro ⟨c, s, ⟨found, admin, rfl⟩, _, _, rfl, rfl, rfl⟩
    exact ⟨c, found, admin, rfl, h.clearProposal⟩
  · rintro ⟨c, found, admin, rfl, keeps⟩
    exact ⟨c, s, ⟨found, admin, rfl⟩, (), _, rfl, rfl, h.clearProposal.eq_iff.mpr keeps⟩

end BridgePool.Bridge
