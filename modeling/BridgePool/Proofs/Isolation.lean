import BridgePool.Proofs.Answers
import BridgePool.Proofs.Book.Tokens

/-!
# Tokens do not interfere

A call about one token leaves every row of every other token as it was, byte for byte, and with the
rows what is answered about that token: the pages of its listing, its pending batch and its total in
the view of the fees (`Reachable.tokensApart`).

* `Store.RowOf` — which rows are those of a token;
* `Call.Concerns` — which calls are about a token;
* `Book.Alike.rows`, `Book.Alike.page`, `Book.Alike.pending`, `Book.Alike.fees` — what stores with
  alike books have in common.
-/

namespace BridgePool

variable {s s' : Store} {b b' : Book} {c : Call} {r : Response} {ds : List Deed}
  {contract other : RawAddress}

/-- The row keeps a transfer or a batch of the token, or its key names the token. -/
inductive Store.RowOf (contract : RawAddress) (key row : Bytes) : Prop
  | transfer {t : Transfer} (kind : key.head? = some 0x01) (read : Codec.ofBytes? row = some t)
      (own : t.token.contract.raw = contract)
  | fee (start : Cell.feeStart contract <+: key)
  | batch {batch : Batch} (kind : key.head? = some 0x03) (read : Codec.ofBytes? row = some batch)
      (own : batch.contract.raw = contract)
  | openNonce (place : key = (Cell.openBatch contract).key)
  | locked {spelled : Address} (own : spelled.raw = contract)
      (place : key = (Cell.locked (Denom.ofContract spelled)).key)

/-- Two stores have the same rows of a token, and give the same answers about it. -/
structure Store.Alike (contract : RawAddress) (s s' : Store) : Prop where
  rows : ∀ key row, RowOf contract key row → (s'.get? key = some row ↔ s.get? key = some row)
  page : ∀ text spelled, Address.parse text = .ok spelled → spelled.raw = contract →
    ∀ after limit, Bridge.answer s' (.waitingOf text after limit) =
      Bridge.answer s (.waitingOf text after limit)
  pending : ∀ text spelled, Address.parse text = .ok spelled → spelled.raw = contract →
    Bridge.answer s' (.pendingBatch text) = Bridge.answer s (.pendingBatch text)
  /-- Both views of the fees have the same total of the token, or none. -/
  fees : ∀ count, ∃ totals totals', Bridge.answer s (.fees count) = .ok (.fees totals) ∧
    Bridge.answer s' (.fees count) = .ok (.fees totals') ∧
      totals'.filter (·.token.raw = contract) = totals.filter (·.token.raw = contract)

/-- The call sends some of the token, or names its contract or one of its transfers or batches. -/
inductive Call.Concerns (s : Store) (contract : RawAddress) : Call → Prop
  | send {env : Env} {caller : Caller} {destination : String} {amount fee : Coin} {token : Token}
      (sent : Token.ofCoin amount = .ok token) (own : token.contract.raw = contract) :
      Concerns s contract (.command env caller (.send destination amount fee))
  | cancelSend {env : Env} {caller : Caller} {id : UInt64} {t : Transfer}
      (kept : s.transfer? id = .ok (some t)) (own : t.token.contract.raw = contract) :
      Concerns s contract (.command env caller (.cancelSend id))
  | requestBatch {env : Env} {caller : Caller} {text : String} {asked : Address}
      (parsed : Address.parse text = .ok asked) (own : asked.raw = contract) :
      Concerns s contract (.command env caller (.requestBatch text))
  | cancelBatch {env : Env} {caller : Caller} {nonce : UInt64} {batch : Batch}
      (recorded : s.batch? nonce = .ok (some batch)) (own : batch.contract.raw = contract) :
      Concerns s contract (.command env caller (.cancelBatch nonce))
  | batchExecuted {nonce : UInt64} {batch : Batch}
      (recorded : s.batch? nonce = .ok (some batch)) (own : batch.contract.raw = contract) :
      Concerns s contract (.hostEvent (.batchExecuted nonce))

/-! ## One call -/

/-- A call about a token does one deed, which is about that token. -/
theorem Call.Concerns.deed (about : c.Concerns s contract) (h : s.Keeps b) (sound : b.Sound)
    (outcome : Outcome b c r ds) (moves : Moves b ds b') :
    ∃ d, Move b d b' ∧ d.token? = some contract := by
  cases about with
  | send sent own =>
      cases outcome with
      | send sends =>
          have same := Except.ok.inj (sends.token.symm.trans sent)
          exact ⟨_, moves.of_single, congrArg some (same ▸ own)⟩
  | cancelSend kept own =>
      cases outcome with
      | cancelSend _ _ =>
          have move := moves.of_single
          refine ⟨_, move, congrArg some ?_⟩
          cases move with
          | refund found _ =>
              rw [h.transfer?, found, Except.ok.injEq, Option.some.injEq] at kept
              exact kept ▸ own
  | requestBatch parsed own =>
      cases outcome with
      | requestBatch _ _ parsed' gathers _ =>
          have same := Except.ok.inj (parsed'.symm.trans parsed)
          refine ⟨_, moves.of_single, congrArg some ?_⟩
          rw [gathers.own_contract sound.filed, same, own]
  | cancelBatch recorded own =>
      cases outcome with
      | cancelBatch _ _ =>
          have move := moves.of_single
          refine ⟨_, move, congrArg some ?_⟩
          cases move with
          | disband found _ _ =>
              rw [h.batch?, found, Except.ok.injEq, Option.some.injEq] at recorded
              exact recorded ▸ own
  | batchExecuted recorded own =>
      cases outcome with
      | batchExecuted =>
          have move := moves.of_single
          refine ⟨_, move, congrArg some ?_⟩
          cases move with
          | settle found _ _ =>
              rw [h.batch?, found, Except.ok.injEq, Option.some.injEq] at recorded
              exact recorded ▸ own

/-! ## Stores with alike books -/

namespace Book.Alike

variable (alike : b.Alike contract b') (h : s.Keeps b) (h' : s'.Keeps b') (sound : b.Sound)
  (sound' : b'.Sound)

include alike

include h h' in
theorem mem_waiting {t : Transfer} (own : t.token.contract.raw = contract) :
    t ∈ s'.waiting ↔ t ∈ s.waiting := by
  rw [Store.mem_waiting h, Store.mem_waiting h', alike.transfer own]

include sound sound' in
theorem openNonce_eq : b'.openNonce contract = b.openNonce contract := by
  ext n
  rw [sound.open_iff, sound'.open_iff]
  refine exists_congr fun batch => ?_
  constructor
  · rintro ⟨recorded, opened, own⟩
    exact ⟨(alike.batch own).mp recorded, opened, own⟩
  · rintro ⟨recorded, opened, own⟩
    exact ⟨(alike.batch own).mpr recorded, opened, own⟩

include h h' sound sound'

theorem queue_eq : s'.queue contract = s.queue contract := by
  have mine : s.Listed (·.token.contract.raw = contract) (s.queue contract) :=
    ⟨(h.listed_queue sound contract).ordered, fun _ => Store.mem_queue⟩
  have theirs : s.Listed (·.token.contract.raw = contract) (s'.queue contract) :=
    ⟨(h'.listed_queue sound' contract).ordered, fun _ =>
      Store.mem_queue.trans (and_congr_left (alike.mem_waiting h h'))⟩
  exact theirs.unique mine

/-- The rows of the token are the same. -/
theorem rows {key row : Bytes} (mine : Store.RowOf contract key row) :
    s'.get? key = some row ↔ s.get? key = some row := by
  cases mine with
  | transfer kind read own =>
      rw [Store.transfer_row_iff h kind, Store.transfer_row_iff h' kind]
      refine exists_congr fun u => and_congr_right fun _ => and_congr_left ?_
      rintro rfl
      obtain rfl := Option.some.inj ((Codec.ofBytes?_bytes u).symm.trans read)
      exact alike.transfer own
  | fee start =>
      have kind : key.head? = some 0x02 := by
        obtain ⟨rest, rfl⟩ := start
        rfl
      rw [Store.fee_row_iff h sound kind, Store.fee_row_iff h' sound' kind]
      refine and_congr_right fun _ => exists_congr fun t => and_congr_left ?_
      rintro rfl
      -- the key names the contract of the fee, which is spelled as that of the token
      obtain ⟨_, _, same⟩ := Cell.feeStart_prefix_key_iff.mp start
      have own : t.fee.contract.raw = contract := (Cell.fee.inj same).1
      constructor
      · intro waits
        have spelled := sound'.spelled ((Store.mem_waiting h').mp waits).1
        exact (alike.mem_waiting h h' (spelled ▸ own)).mp waits
      · intro waits
        have spelled := sound.spelled ((Store.mem_waiting h).mp waits).1
        exact (alike.mem_waiting h h' (spelled ▸ own)).mpr waits
  | batch kind read own =>
      rw [Store.batch_row_iff h kind, Store.batch_row_iff h' kind]
      refine exists_congr fun u => and_congr_right fun _ => and_congr_left ?_
      rintro rfl
      obtain rfl := Option.some.inj ((Codec.ofBytes?_bytes u).symm.trans read)
      exact alike.batch own
  | openNonce place =>
      rw [place, h.get?_openBatch, h'.get?_openBatch, alike.openNonce_eq sound sound']
  | locked own place =>
      rw [place, h.get?_locked, h'.get?_locked, alike.locked _ own]

/-- Every page of the token's listing is the same. -/
theorem page {spelled : Address} (own : spelled.raw = contract) (after : Option Bytes)
    (limit : Option UInt32) : Bridge.answer s' (.waitingOf spelled.spelling after limit) =
      Bridge.answer s (.waitingOf spelled.spelling after limit) := by
  rcases Listing.cursor_cases spelled after with ⟨place, owned, rfl⟩ | ⟨fault, refused⟩
  · obtain ⟨ts, listed, answered⟩ := Scope.answer_eq h sound (.token spelled) place owned
    obtain ⟨ts', listed', answered'⟩ := Scope.answer_eq h' sound' (.token spelled) place owned
    have theirs : s.Listed (fun t => Scope.Covers (.token spelled) t ∧
        ∀ p ∈ place, p.before t.position) ts' :=
      ⟨listed'.ordered, fun t => (listed'.mem_iff t).trans (and_congr_left fun ⟨covered, _⟩ =>
        alike.mem_waiting h h' (covered.trans own))⟩
    obtain rfl := theirs.unique listed
    exact (answered' limit).trans (answered limit).symm
  · simp only [Bridge.answer, Bridge.askedAddress, Address.parse_spelling, refused, bind,
      Except.bind, Except.mapError]

/-- What is shown of the token's pending batch is the same. -/
theorem pending {spelled : Address} (own : spelled.raw = contract) :
    Bridge.answer s' (.pendingBatch spelled.spelling) =
      Bridge.answer s (.pendingBatch spelled.spelling) := by
  have nonce : b'.openNonce spelled.raw = b.openNonce spelled.raw :=
    own ▸ alike.openNonce_eq sound sound'
  simp only [Bridge.answer, Bridge.askedAddress, Address.parse_spelling, Except.mapError, bind,
    Except.bind, h.pending?, h'.pending?, nonce]
  cases pending : b.openNonce spelled.raw with
  | none => rfl
  | some n =>
      obtain ⟨batch, recorded, opened, owned⟩ := sound.open_iff.mp pending
      have mine : batch.contract.raw = contract := owned.trans own
      have view : BatchView.ofBatch s' batch = BatchView.ofBatch s batch := by
        rw [BatchView.ofBatch, BatchView.ofBatch, BatchView.collect_congr]
        intro id listed
        obtain ⟨t, kept, same⟩ := sound.open_kept recorded opened listed
        rw [h.transfer?, h'.transfer?, kept, (alike.transfer (same.trans mine)).mpr kept]
      rw [Option.bind_some, Option.bind_some, recorded, (alike.batch mine).mpr recorded,
        BatchView.ofBatch?, BatchView.ofBatch?, Option.mapM_some, Option.mapM_some, view]

/-- The total of the token is the same. -/
theorem total_eq {count : Nat} (few : count ≤ 1000) :
    FeeTotal.ofContract s' count contract = FeeTotal.ofContract s count contract := by
  obtain ⟨f, added, total, number, token⟩ := h.exists_total sound contract few
  obtain ⟨f', added', total', number', token'⟩ := h'.exists_total sound' contract few
  rw [alike.queue_eq h h' sound sound'] at total' number' token'
  have same : f' = f :=
    FeeTotal.ext (token'.trans token.symm) (Amount.ext (total'.trans total.symm))
      (UInt32.toNat_inj.mp (number'.trans number.symm))
  rw [added, added', same]

/-- Both views of the fees have the same total of the token, or none. -/
theorem fees (count : Option UInt32) :
    ∃ totals totals', Bridge.answer s (.fees count) = .ok (.fees totals) ∧
      Bridge.answer s' (.fees count) = .ok (.fees totals') ∧
        totals'.filter (·.token.raw = contract) = totals.filter (·.token.raw = contract) := by
  obtain ⟨config, configured, bounds⟩ := sound.config_bounds
  have few := FeeTotal.asked_le bounds count
  obtain ⟨totals, all, ascending, mem⟩ := h.exists_totals sound few
  obtain ⟨totals', all', ascending', mem'⟩ := h'.exists_totals sound' few
  refine ⟨totals, totals', h.answer_fees configured all,
    h'.answer_fees (alike.config.trans configured) all', ?_⟩
  refine Bytes.eq_of_ascending (·.token.raw.val) (ascending'.filter _) (ascending.filter _)
    fun f => ?_
  simp only [List.mem_filter, decide_eq_true_eq, mem, mem']
  refine and_congr_left ?_
  rintro rfl
  have waits : (∃ t ∈ s'.waiting, t.token.contract.raw = f.token.raw) ↔
      ∃ t ∈ s.waiting, t.token.contract.raw = f.token.raw :=
    exists_congr fun t => and_congr_left (alike.mem_waiting h h')
  rw [waits, alike.total_eq h h' sound sound' few]

end Book.Alike

/-- Stores with alike books have the same of the token. -/
theorem Book.Alike.stores (alike : b.Alike contract b') (h : s.Keeps b) (h' : s'.Keeps b')
    (sound : b.Sound) (sound' : b'.Sound) : s.Alike contract s' := by
  constructor
  case rows => exact fun _ _ mine => alike.rows h h' sound sound' mine
  case page =>
    intro text spelled parsed own after limit
    obtain rfl := Address.parse_eq_ok.mp parsed
    exact alike.page h h' sound sound' own after limit
  case pending =>
    intro text spelled parsed own
    obtain rfl := Address.parse_eq_ok.mp parsed
    exact alike.pending h h' sound sound' own
  case fees => exact alike.fees h h' sound sound'

/-- A successful call about one token leaves the rows of every other token, and what is answered
about it, as they were. -/
theorem Reachable.tokensApart (h : Reachable s) (about : c.Concerns s contract)
    (apart : contract ≠ other) (ran : c.run s = (.ok r, s')) : s.Alike other s' := by
  obtain ⟨ds, b', outcome, moves, keeps⟩ := Call.run_ok h.keeps h.sound ran
  obtain ⟨d, move, token⟩ := about.deed h.keeps h.sound outcome moves
  exact (move.alike h.sound token apart).stores h.keeps keeps h.sound (h.sound.move move)

/-! ## A second token -/

namespace Chain

/-- The last of all contracts. -/
def lastContract : Address :=
  .ofRaw ⟨List.replicate 20 0xff, List.length_replicate⟩

/-- A send of a hundred vouchers of the last contract for a fee of ten. -/
def otherSend : Call :=
  .command ⟨2, ⟨0⟩⟩ ⟨"sender", [⟨Denom.ofContract lastContract, firstSum⟩]⟩
    (.send Address.zero.spelling ⟨Denom.ofContract lastContract, firstAmount.amount⟩
      ⟨Denom.ofContract lastContract, firstFee.amount⟩)

theorem lastContract_ne_zero : lastContract.raw ≠ Address.zero.raw := by
  rw [lastContract, Address.zero, Address.raw_ofRaw, Address.raw_ofRaw]
  decide

/-- After the first send, the send of the other token succeeds. -/
theorem run_otherSend : ∃ r s', otherSend.run (firstSend.run plainStore).2 = (.ok r, s') := by
  obtain ⟨config, _, _, active, _, _, keeps⟩ := run_firstSend
  -- the ledger has a row for the first denom alone
  have apart : Denom.ofContract lastContract ≠ firstTransfer.token.denom :=
    Token.denom_ne lastContract_ne_zero.symm
  have nothing : ((Book.founded config).accept firstTransfer firstSum).locked.held
      (Denom.ofContract lastContract) = 0 :=
    (Holdings.held_update _ _ _ _).trans (if_neg apart)
  have credited : firstSum.val = ((Book.founded config).accept firstTransfer firstSum).locked.held
      (Denom.ofContract lastContract) + firstSum.val := by
    rw [nothing, Nat.zero_add]
  obtain ⟨r, s', ran, _⟩ := run_plainSend keeps lastContract ⟨config, rfl, active⟩
    (show (2 : UInt64).toNat + 1 < UInt64.size by decide) credited ⟨2, ⟨0⟩⟩
  exact ⟨r, s', ran⟩

/-- The send of the last contract leaves what the first send put into the store. -/
theorem tokensApart_after_otherSend : ∃ s s' r, Reachable s ∧ otherSend.run s = (.ok r, s') ∧
    otherSend.Concerns s lastContract.raw ∧ lastContract.raw ≠ Address.zero.raw ∧
      s.Alike Address.zero.raw s' ∧
        s'.get? (Cell.transfer 1).key = some (Codec.bytes firstTransfer) := by
  obtain ⟨r, s', ran⟩ := run_otherSend
  obtain ⟨config, _, _, active, _, _, keeps⟩ := run_firstSend
  have about : otherSend.Concerns (firstSend.run plainStore).2 lastContract.raw :=
    .send (sends_plainTransfer (b := Book.founded config) lastContract ⟨config, rfl, active⟩
      (show (1 : UInt64).toNat + 1 < UInt64.size by decide)).token rfl
  have alike := reachable_firstSend.tokensApart about lastContract_ne_zero ran
  have kept := (keeps.get?_transfer 1).trans (congrArg (Option.map Codec.bytes)
    (show ((Book.founded config).accept firstTransfer firstSum).transfer 1 = some firstTransfer
      from rfl))
  have row := (alike.rows _ _ (.transfer rfl (Codec.ofBytes?_bytes firstTransfer) rfl)).mpr kept
  exact ⟨_, s', r, reachable_firstSend, ran, about, lastContract_ne_zero, alike, row⟩

end Chain

end BridgePool
