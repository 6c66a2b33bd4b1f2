import BridgePool.Proofs.Book.Timeouts
import BridgePool.Proofs.Pool.Queue
import BridgePool.Proofs.Refusal

/-!
# Requests for batches

Anyone can have a batch cut while the bridge is not paused, once a height of the far chain was
observed, if the contract has no open batch and a waiting transfer, and a nonce is left
(`Store.Grants`). The batch then takes the front of the contract's queue, as many transfers as the
configuration allows, and apart from the rows of the batch and of these transfers nothing changes
(`Store.Cuts`). `Reachable.requestExact` says so of every reachable store.
-/

namespace BridgePool

namespace Store

/-- What has to hold for a batch of a contract to be cut. -/
structure Grants (s : Store) (config : Config) (contract : RawAddress) : Prop where
  active : config.paused = false
  observed : ∃ height, s.observedHeight = .ok height ∧ height ≠ 0
  free : ∀ batch ∈ s.batchesOpen, batch.contract.raw ≠ contract
  waits : ∃ t ∈ s.waiting, t.token.contract.raw = contract
  room : ∃ last, s.lastNonce = .ok last ∧ last.toNat + 1 < UInt64.size

/-- The transfers that a batch takes: as many as the configuration allows, from the front of the
queue. -/
def front (s : Store) (config : Config) (contract : RawAddress) : List Transfer :=
  (s.queue contract).take config.batchSize.toNat

end Store

/-- The cells that are written when a batch with these transfers is cut. -/
def Batch.cells (batch : Batch) (ts : List Transfer) : List Cell :=
  [.lastNonce, .batch batch.nonce, .openBatch batch.contract.raw] ++
    ts.flatMap fun t => [.transfer t.id, Store.feeCell t]

namespace Store

/-- The batch is cut from the front of the queue of `s`, and `s'` is the store after it. -/
structure Cuts (s s' : Store) (config : Config) (contract : RawAddress) (block : UInt64)
    (batch : Batch) : Prop where
  nonce : ∃ last, s.lastNonce = .ok last ∧ batch.nonce.toNat = last.toNat + 1
  timeout : ∃ height, s.observedHeight = .ok height ∧
    batch.timeout.toNat = min (height.toNat + config.timeoutBlocks.toNat) (UInt64.size - 1)
  ids : batch.ids = (s.front config contract).map (·.id)
  /-- The batch spells its contract as its first transfer does. -/
  spelled : ∃ lead, (s.front config contract).head? = some lead ∧
    batch.contract = lead.token.contract
  own_contract : batch.contract.raw = contract
  block : batch.block = block
  opened : batch.state = .open
  absent : s.batch? batch.nonce = .ok none
  recorded : s'.batch? batch.nonce = .ok (some batch)
  counted : s'.lastNonce = .ok batch.nonce
  pending : s'.openNonce? batch.contract = .ok (some batch.nonce)
  /-- Its transfers are in the batch and have no fee rows any more. -/
  carried : ∀ t ∈ s.front config contract,
    s'.transfer? t.id = .ok (some { t with state := .inBatch batch.nonce }) ∧
      s'.get? (feeCell t).key = none
  /-- No other row changes. -/
  rest : ∀ key ∉ (batch.cells (s.front config contract)).map Cell.key, s'.get? key = s.get? key

/-- When a request for a batch succeeds, and what it does. -/
structure RequestExact (s : Store) : Prop where
  succeeds_iff : ∃ config, s.config = .ok config ∧ ∀ env caller text,
    (Call.command env caller (.requestBatch text)).Succeeds s ↔
      ∃ contract, Address.parse text = .ok contract ∧ s.Grants config contract.raw
  cuts : ∀ env caller text r s',
    (Call.command env caller (.requestBatch text)).run s = (.ok r, s') →
      ∃ config contract batch, s.config = .ok config ∧ Address.parse text = .ok contract ∧
        s.Cuts s' config contract.raw env.height batch ∧
          r.events = [.ofBatch "outgoing_batch_created" batch] ∧ r.messages = []

end Store

open Operation

variable {s s' : Store} {b b' : Book} {batch : Batch} {config : Config} {contract : RawAddress}
  {count : Nat} {block timeout : UInt64} {ts : List Transfer}

/-! ## Rows that stay -/

/-- A cut leaves the rows of other cells as they are. -/
theorem Book.row_gather (ids : batch.ids = ts.map (·.id))
    (kept : ∀ t ∈ ts, b.transfer t.id = some t) {c : Cell} (other : c ∉ batch.cells ts) :
    (b.gather batch).row c = b.row c := by
  have member {id : UInt64} (listed : id ∈ batch.ids) : ∃ t ∈ ts, t.id = id := by
    rw [ids] at listed
    exact List.mem_map.mp listed
  simp only [Batch.cells, List.mem_append, List.mem_cons, List.not_mem_nil, or_false,
    List.mem_flatMap, not_or, not_exists, not_and] at other
  obtain ⟨⟨notCounter, notBatch, notOpen⟩, notMember⟩ := other
  cases c with
  | transfer id =>
      have absent : id ∉ batch.ids := by
        intro listed
        obtain ⟨t, mem, rfl⟩ := member listed
        exact (notMember t mem).1 rfl
      exact congrArg (Option.map Codec.bytes) (moved_of_not_mem absent)
  | fee contract amount id =>
      have absent : (⟨contract, amount, id⟩ : Position) ∉ b.places batch.ids := by
        rintro ⟨listed, u, found, place⟩
        obtain ⟨t, mem, rfl⟩ := member listed
        rw [kept t mem, Option.some.injEq] at found
        subst found
        exact (notMember t mem).2 (congrArg Position.cell place).symm
      have same : (⟨contract, amount, id⟩ : Position) ∈ b.listed \ b.places batch.ids ↔
          (⟨contract, amount, id⟩ : Position) ∈ b.listed :=
        ⟨And.left, fun listed => ⟨listed, absent⟩⟩
      exact row_fee_congr same
  | batch nonce =>
      have other : nonce ≠ batch.nonce := fun same => notBatch (same ▸ rfl)
      exact congrArg (Option.map Codec.bytes) (Function.update_of_ne other _ _)
  | lastNonce => exact absurd rfl notCounter
  | openBatch contract =>
      have other : contract ≠ batch.contract.raw := fun same => notOpen (same ▸ rfl)
      exact congrArg (Option.map Cell.word) (Function.update_of_ne other _ _)
  | _ => rfl

/-! ## The front of the queue -/

/-- The front of a queue with a transfer in it has a first one. -/
theorem Store.exists_head_front (bounds : config.InBounds)
    (waits : ∃ t ∈ s.waiting, t.token.contract.raw = contract) :
    ∃ lead, (s.front config contract).head? = some lead := by
  obtain ⟨t, mem, own⟩ := waits
  have size : config.batchSize.toNat ≠ 0 :=
    fun zero => bounds.batchSize_pos (UInt32.toNat_inj.mp zero)
  have some_queue : s.queue contract ≠ [] := List.ne_nil_of_mem (Store.mem_queue.mpr ⟨mem, own⟩)
  have some_front : s.front config contract ≠ [] := by simp [Store.front, some_queue, size]
  exact ⟨_, List.head?_eq_some_head some_front⟩

namespace Store.Keeps

theorem kept_of_mem_front (h : s.Keeps b) {t : Transfer} (mem : t ∈ s.front config contract) :
    b.transfer t.id = some t ∧ t.state = .unbatched :=
  (mem_waiting h).mp (mem_queue.mp (List.mem_of_mem_take mem)).1

/-- The front is what the first positions of the listing stand for. -/
theorem map_front (h : s.Keeps b) (sound : b.Sound) {all : List Position}
    (lists : b.Lists contract all) :
    (all.take config.batchSize.toNat).map Position.id = (s.front config contract).map (·.id) := by
  obtain rfl := lists.unique (h.lists_queue sound contract)
  rw [front, ← List.map_take, List.map_map]
  rfl

/-- No open nonce is recorded for a contract exactly when none of the open batches is of it. -/
theorem openNonce_eq_none_iff (h : s.Keeps b) (sound : b.Sound) :
    b.openNonce contract = none ↔ ∀ batch ∈ s.batchesOpen, batch.contract.raw ≠ contract := by
  rw [Option.eq_none_iff_forall_ne_some]
  constructor
  · intro free batch mem own
    obtain ⟨recorded, opened⟩ := (mem_batchesOpen h).mp mem
    exact free batch.nonce (sound.open_iff.mpr ⟨batch, recorded, opened, own⟩)
  · intro free nonce pending
    obtain ⟨batch, recorded, opened, own⟩ := sound.open_iff.mp pending
    obtain rfl := sound.batch_nonce recorded
    exact free batch ((mem_batchesOpen h).mpr ⟨recorded, opened⟩) own

/-- Whatever is granted can be gathered. -/
theorem exists_gathers (h : s.Keeps b) (sound : b.Sound) (bounds : config.InBounds)
    (grants : s.Grants config contract) (timeout block : UInt64) :
    ∃ batch, b.Gathers contract config.batchSize.toNat batch ∧ batch.timeout = timeout ∧
      batch.block = block := by
  obtain ⟨lead, first⟩ := exists_head_front bounds grants.waits
  obtain ⟨last, counted, room⟩ := grants.room
  rw [h.lastNonce, Except.ok.injEq] at counted
  have lists := h.lists_queue sound contract
  refine ⟨⟨b.last + 1, timeout, (s.front config contract).map (·.id), lead.token.contract, block,
    .open⟩, ?_, rfl, rfl⟩
  constructor
  case free => exact (h.openNonce_eq_none_iff sound).mpr grants.free
  case ids => exact ⟨_, lists, (h.map_front sound lists).symm⟩
  case spelled =>
    refine ⟨lead, ?_, rfl⟩
    rw [List.head?_map, first]
    exact (h.kept_of_mem_front (List.mem_of_mem_head? first)).1
  case own_nonce => rfl
  case room =>
    rw [Book.last, counted]
    exact room
  case opened => rfl

/-- What is gathered was granted. -/
theorem grants_of_gathers (h : s.Keeps b) (sound : b.Sound) (active : config.paused = false)
    (observed : b.height.getD 0 ≠ 0) (gathers : b.Gathers contract count batch) :
    s.Grants config contract where
  active := active
  observed := ⟨_, h.observedHeight, observed⟩
  free := (h.openNonce_eq_none_iff sound).mp gathers.free
  waits := by
    obtain ⟨id, listed⟩ := List.exists_mem_of_length_pos gathers.length_pos
    obtain ⟨t, kept, waits, own⟩ := gathers.waiting sound.filed listed
    obtain rfl := sound.transfer_id kept
    exact ⟨t, (mem_waiting h).mpr ⟨kept, waits⟩, own⟩
  room := ⟨_, h.lastNonce, gathers.room⟩

/-- A batch that is gathered with the right timeout is cut from the front. -/
theorem cuts (h : s.Keeps b) (sound : b.Sound)
    (gathers : b.Gathers contract config.batchSize.toNat batch)
    (timeout : batch.timeout =
      Bridge.saturatingAdd (b.height.getD 0) config.timeoutBlocks)
    (h' : s'.Keeps (b.gather batch)) : s.Cuts s' config contract batch.block batch := by
  obtain ⟨all, lists, front⟩ := gathers.ids
  have ids : batch.ids = (s.front config contract).map (·.id) :=
    front.trans (h.map_front sound lists)
  have kept {t : Transfer} (mem : t ∈ s.front config contract) : b.transfer t.id = some t :=
    (h.kept_of_mem_front mem).1
  constructor
  case nonce => exact ⟨_, h.lastNonce, gathers.own_nonce ▸ toNat_succ gathers.room⟩
  case timeout => exact ⟨_, h.observedHeight, timeout ▸ Bridge.toNat_saturatingAdd _ _⟩
  case ids => exact ids
  case spelled =>
    obtain ⟨lead, first, spelled⟩ := gathers.spelled
    obtain ⟨id, head, found⟩ := Option.bind_eq_some_iff.mp first
    rw [ids, List.head?_map] at head
    obtain ⟨t, first, rfl⟩ := Option.map_eq_some_iff.mp head
    rw [kept (List.mem_of_mem_head? first), Option.some.injEq] at found
    exact ⟨lead, found ▸ first, spelled⟩
  case own_contract => exact gathers.own_contract sound.filed
  case block => rfl
  case opened => exact gathers.opened
  case absent => rw [h.batch?, gathers.new_batch sound.filed]
  case recorded =>
    rw [h'.batch?]
    exact congrArg Except.ok (Function.update_self _ _ _)
  case counted => exact h'.lastNonce
  case pending =>
    rw [h'.openNonce?]
    exact congrArg Except.ok (Function.update_self _ _ _)
  case carried =>
    intro t mem
    have listed : t.id ∈ batch.ids := ids ▸ List.mem_map_of_mem mem
    constructor
    · rw [h'.transfer?]
      exact congrArg Except.ok (Book.moved_eq_some.mpr ⟨t, kept mem, (if_pos listed).symm⟩)
    · rw [h'.get?_key]
      have placed : t.position ∈ b.places batch.ids := ⟨listed, t, kept mem, rfl⟩
      exact if_neg fun ⟨_, unplaced⟩ => unplaced placed
  case rest =>
    intro key other
    exact h.get?_eq_of_row h' (fun c => Book.row_gather ids fun t => kept) other

end Store.Keeps

theorem Store.Keeps.request_exact (h : s.Keeps b) (sound : b.Sound) : s.RequestExact := by
  obtain ⟨config, found, bounds⟩ := sound.config_bounds
  refine ⟨⟨config, h.config_eq_ok.mpr found, fun env caller text => ⟨?_, ?_⟩⟩, ?_⟩
  · rintro ⟨r, answer⟩
    have done : (Bridge.requestBatch env text).run s = (.ok r, _) :=
      run_atomic_eq_ok.mp (Prod.ext answer rfl)
    obtain ⟨c, contract, batch, found', active, parsed, observed, gathers, _⟩ :=
      (Bridge.run_requestBatch_eq_ok h sound).mp done
    obtain rfl : config = c := Option.some.inj (found.symm.trans found')
    exact ⟨contract, parsed, h.grants_of_gathers sound active observed gathers⟩
  · rintro ⟨contract, parsed, grants⟩
    obtain ⟨batch, gathers, timeout, block⟩ := h.exists_gathers sound bounds grants
      (Bridge.saturatingAdd (b.height.getD 0) config.timeoutBlocks) env.height
    obtain ⟨s', keeps⟩ := Batch.exists_keeps_gather h sound.filed gathers
    obtain ⟨height, observed, nonzero⟩ := grants.observed
    rw [h.observedHeight, Except.ok.injEq] at observed
    have done : (Bridge.requestBatch env text).run s = (.ok _, s') :=
      (Bridge.run_requestBatch_eq_ok h sound).mpr
        ⟨config, contract, batch, found, grants.active, parsed, observed ▸ nonzero, gathers,
          timeout, block, rfl, keeps⟩
    exact ⟨_, congrArg Prod.fst (run_atomic_eq_ok.mpr done)⟩
  · intro env caller text r s' ran
    obtain ⟨config, contract, batch, found, _, parsed, _, gathers, timeout, block, rfl, keeps⟩ :=
      (Bridge.run_requestBatch_eq_ok h sound).mp (run_atomic_eq_ok.mp ran)
    exact ⟨config, contract, batch, h.config_eq_ok.mpr found, parsed,
      block ▸ h.cuts sound gathers timeout keeps, rfl, rfl⟩

/-- In every reachable store a request for a batch succeeds exactly when it is granted, and cuts
the batch from the front of the queue. -/
theorem Reachable.requestExact (h : Reachable s) : s.RequestExact :=
  h.keeps.request_exact h.sound

/-- At the seventh block a batch of the first send can be requested, and takes it. -/
theorem requestExact_after_firstHeight :
    ∃ s : Store, Reachable s ∧ s.RequestExact ∧ Chain.firstRequest.Succeeds s := by
  obtain ⟨c, bounds, active, keeps⟩ := Chain.exists_firstHeight
  have reached := Chain.reachable_firstSend.call Chain.firstHeight
  obtain ⟨r, s', ran, _⟩ := Chain.run_request bounds active reached keeps ⟨"relayer", []⟩
  exact ⟨_, reached, reached.requestExact, r, congrArg Prod.fst ran⟩

end BridgePool
