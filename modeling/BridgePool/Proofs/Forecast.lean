import BridgePool.Proofs.Pool.Fees
import BridgePool.Proofs.Request

/-!
# The view of the fees predicts the batch

The view of the fees has one total for every contract with a waiting transfer. A batch that is cut
next, of whichever contract, has the number of transfers, the fees and the spelling that the view
had for it, and no other choice of so many transfers has larger fees (`Reachable.forecast`).
-/

namespace BridgePool

open scoped BigOperators

variable {s s' : Store} {b b' : Book} {config : Config} {contract : RawAddress} {batch : Batch}
  {f : FeeTotal}

/-- The total is that of the batch, and of what is shown of it while it is pending, however the
contract is spelled then. -/
structure FeeTotal.Foretells (f : FeeTotal) (batch : Batch) (s : Store) : Prop where
  token : f.token = batch.contract
  count : f.count.toNat = batch.ids.length
  pending : ∀ text spelled, Address.parse text = .ok spelled → spelled.raw = batch.contract.raw →
    ∃ view, Bridge.answer s (.pendingBatch text) = .ok (.batch (some view)) ∧
      view.batch = batch ∧ view.totalFee.amount = f.total

/-- What the view of the fees answers, and what it says of the batches that can be cut next. -/
structure Store.Forecast (s : Store) (config : Config) (totals : List FeeTotal) : Prop where
  answered : Bridge.answer s (.fees none) = .ok (.fees totals)
  ascending : totals.Pairwise fun f g => f.token.raw.val < g.token.raw.val
  /-- The contracts of the totals are those with a waiting transfer. -/
  contracts : ∀ contract : RawAddress, (∃ f ∈ totals, f.token.raw = contract) ↔
    ∃ t ∈ s.waiting, t.token.contract.raw = contract
  /-- A request that succeeds cuts the batch that the total of its contract foretells. -/
  foretells : ∀ env caller text r s',
    (Call.command env caller (.requestBatch text)).run s = (.ok r, s') →
      ∃ asked batch, Address.parse text = .ok asked ∧ asked.raw = batch.contract.raw ∧
        s.batch? batch.nonce = .ok none ∧ s'.batch? batch.nonce = .ok (some batch) ∧
          r.events = [.ofBatch "outgoing_batch_created" batch] ∧
            ∃ f ∈ totals, f.Foretells batch s'
  /-- As many waiting transfers of a contract as fit a batch have no larger fees. -/
  best : ∀ f ∈ totals, ∀ picks : Finset Transfer,
    (∀ t ∈ picks, t ∈ s.waiting ∧ t.token.contract.raw = f.token.raw) →
      picks.card ≤ config.batchSize.toNat → ∑ t ∈ picks, t.fee.amount.val ≤ f.total.val

/-- The total of a contract's transfers that a batch takes now. -/
structure FeeTotal.Sums (f : FeeTotal) (s : Store) (config : Config) : Prop where
  token : ∃ lead, (s.front config f.token.raw).head? = some lead ∧ f.token = lead.token.contract
  total : f.total.val = Transfer.fees (s.front config f.token.raw)
  count : f.count.toNat = (s.front config f.token.raw).length

namespace Store.Keeps

theorem length_front_le (bounds : config.InBounds) : (s.front config contract).length ≤ 1000 := by
  have size : config.batchSize.toNat ≤ 1000 := UInt32.le_iff_toNat_le.mp bounds.batchSize_le
  rw [front, List.length_take]
  omega

theorem fees_front_lt (h : s.Keeps b) (sound : b.Sound) (bounds : config.InBounds) :
    Transfer.fees (s.front config contract) < Nat.pow 2 256 :=
  sound.fees_lt (fun _ mem => (h.kept_of_mem_front mem).1) (length_front_le bounds)

/-! ## The totals -/

/-- The first transfers of a contract can be added up, and its queue says what they come to. -/
theorem exists_total (h : s.Keeps b) (sound : b.Sound) (contract : RawAddress) {count : Nat}
    (few : count ≤ 1000) :
    ∃ f, FeeTotal.ofContract s count contract = .ok f ∧
      f.total.val = Transfer.fees ((s.queue contract).take count) ∧
        f.count.toNat = ((s.queue contract).take count).length ∧
          f.token = (((s.queue contract).take count).head?.map (·.token.contract)).getD
            (.ofRaw contract) := by
  have kept : ∀ t ∈ (s.queue contract).take count, b.transfer t.id = some t := fun t mem =>
    ((mem_waiting h).mp (mem_queue.mp (List.mem_of_mem_take mem)).1).1
  have short : ((s.queue contract).take count).length ≤ 1000 := by
    rw [List.length_take]
    omega
  have size : 1000 < UInt32.size := by decide
  obtain ⟨f, collected, total, number, token⟩ := FeeTotal.collect_ofTransfers
    (fun t mem => (h.transfer? t.id).trans (congrArg _ (kept t mem)))
    ⟨Address.ofRaw contract, Amount.zero, 0⟩ (by simpa using sound.fees_lt kept short)
    (by simpa using Nat.lt_of_le_of_lt short size)
  refine ⟨f, ?_, by simpa using total, by simpa using number, ?_⟩
  · rw [FeeTotal.ofContract, Listing.ofContract_eq_queue h sound, Listing.ofTransfers,
      ← List.map_take]
    exact collected
  · -- the fee of the first transfer is spelled as its amount is
    rw [token, if_pos rfl]
    cases first : ((s.queue contract).take count).head? with
    | none => rfl
    | some lead =>
        have spelled := sound.spelled (kept lead (List.mem_of_mem_head? first))
        rw [Option.map_some, Option.map_some, Option.getD_some, Option.getD_some, spelled]

/-- A total is spelled with the bytes of its contract. -/
theorem raw_of_total (h : s.Keeps b) (sound : b.Sound) {count : Nat} (few : count ≤ 1000)
    (added : FeeTotal.ofContract s count contract = .ok f) : f.token.raw = contract := by
  obtain ⟨f', added', _, _, token⟩ := h.exists_total sound contract few
  obtain rfl := Except.ok.inj (added.symm.trans added')
  rw [token]
  cases first : ((s.queue contract).take count).head? with
  | none => exact Address.raw_ofRaw contract
  | some lead => exact (mem_queue.mp (List.mem_of_mem_take (List.mem_of_mem_head? first))).2

/-- The total of a contract with a waiting transfer. -/
theorem ofContract_ok (h : s.Keeps b) (sound : b.Sound) (bounds : config.InBounds)
    (waits : ∃ t ∈ s.waiting, t.token.contract.raw = contract) :
    ∃ f, FeeTotal.ofContract s config.batchSize.toNat contract = .ok f ∧
      f.token.raw = contract ∧ f.Sums s config := by
  have few : config.batchSize.toNat ≤ 1000 := UInt32.le_iff_toNat_le.mp bounds.batchSize_le
  obtain ⟨lead, first⟩ := exists_head_front bounds waits
  obtain ⟨f, added, total, count, token⟩ := h.exists_total sound contract few
  have same := h.raw_of_total sound few added
  have spelled : f.token = lead.token.contract := by
    rw [token, ← front, first, Option.map_some, Option.getD_some]
  refine ⟨f, added, same, ?_⟩
  constructor <;> rw [same]
  case token => exact ⟨lead, first, spelled⟩
  case total => exact total
  case count => exact count

/-- A contract is listed when one of its transfers waits. -/
theorem exists_contracts (h : s.Keeps b) (sound : b.Sound) :
    ∃ cs : List RawAddress, Listing.contracts s = cs.map .ok ∧
      cs.Pairwise (fun c d => c.val < d.val) ∧
        ∀ c, c ∈ cs ↔ ∃ t ∈ s.waiting, t.token.contract.raw = c := by
  obtain ⟨cs, scanned, ascending, mem⟩ := Listing.contractsFrom_eq h [0x02]
  refine ⟨cs, scanned, ascending, fun c => (mem c).trans ?_⟩
  constructor
  · rintro ⟨p, listed, _, rfl⟩
    obtain ⟨t, kept, waits, rfl⟩ := sound.listed_iff.mp listed
    have own : t.position.contract = t.token.contract.raw :=
      congrArg Address.raw (sound.spelled kept)
    exact ⟨t, (mem_waiting h).mpr ⟨kept, waits⟩, own.symm⟩
  · rintro ⟨t, mem, rfl⟩
    obtain ⟨kept, waits⟩ := (mem_waiting h).mp mem
    have from_start : ¬ t.position.cell.key < [0x02] :=
      List.not_lt.mpr ((Cell.mem_family_range (b := 0x02) (by decide)).mpr (Cell.head?_key _)).1
    exact ⟨t.position, sound.listed_iff.mpr ⟨t, kept, waits, rfl⟩, from_start,
      congrArg Address.raw (sound.spelled kept)⟩

/-- The contracts with a waiting transfer have a total each, in ascending order. -/
theorem exists_totals (h : s.Keeps b) (sound : b.Sound) {count : Nat} (few : count ≤ 1000) :
    ∃ totals, FeeTotal.top s count = .ok totals ∧
      totals.Pairwise (fun f g => f.token.raw.val < g.token.raw.val) ∧
        ∀ f, f ∈ totals ↔ (∃ t ∈ s.waiting, t.token.contract.raw = f.token.raw) ∧
          FeeTotal.ofContract s count f.token.raw = .ok f := by
  obtain ⟨cs, listed, ascending, mem⟩ := h.exists_contracts sound
  have steps : ∀ c ∈ cs, ∃ f, FeeTotal.ofContract s count c = .ok f ∧
      (f.token.raw = c ∧ FeeTotal.ofContract s count c = .ok f) := fun c _ => by
    obtain ⟨f, added, _⟩ := h.exists_total sound c few
    exact ⟨f, added, h.raw_of_total sound few added, added⟩
  obtain ⟨totals, all, each⟩ := exists_mapM_eq_ok steps
  -- the contracts are those of the totals, one by one
  have own : cs = totals.map (·.token.raw) := by
    rw [← List.forall₂_eq_eq_eq, List.forall₂_map_right_iff]
    exact each.imp fun c f holds => holds.1.symm
  rw [own, List.forall₂_map_left_iff, List.forall₂_same] at each
  refine ⟨totals, ?_, ?_, fun f => ?_⟩
  · rw [FeeTotal.top, listed, List.mapM_map]
    exact all
  · rw [own, List.pairwise_map] at ascending
    exact ascending
  · rw [← mem, own, List.mem_map]
    constructor
    · exact fun found => ⟨⟨f, found, rfl⟩, (each f found).2⟩
    · rintro ⟨⟨g, found, same⟩, added⟩
      have added' := (each g found).2
      rw [same, added, Except.ok.injEq] at added'
      exact added' ▸ found

/-- The totals for batches of the configured size. -/
theorem top_ok (h : s.Keeps b) (sound : b.Sound) (bounds : config.InBounds) :
    ∃ totals, FeeTotal.top s config.batchSize.toNat = .ok totals ∧
      totals.Pairwise (fun f g => f.token.raw.val < g.token.raw.val) ∧
        (∀ contract, (∃ f ∈ totals, f.token.raw = contract) ↔
          ∃ t ∈ s.waiting, t.token.contract.raw = contract) ∧
            ∀ f ∈ totals, f.Sums s config := by
  obtain ⟨totals, all, ascending, mem⟩ :=
    h.exists_totals sound (UInt32.le_iff_toNat_le.mp bounds.batchSize_le)
  refine ⟨totals, all, ascending, fun contract => ⟨?_, fun waits => ?_⟩, fun f found => ?_⟩
  · rintro ⟨f, found, rfl⟩
    exact ((mem f).mp found).1
  · obtain ⟨f, added, rfl, _⟩ := h.ofContract_ok sound bounds waits
    exact ⟨f, (mem f).mpr ⟨waits, added⟩, rfl⟩
  · obtain ⟨waits, added⟩ := (mem f).mp found
    obtain ⟨g, added', _, sums⟩ := h.ofContract_ok sound bounds waits
    obtain rfl := Except.ok.inj (added.symm.trans added')
    exact sums

/-! ## What the totals say -/

/-- What is shown of a batch that was just cut from the front. -/
theorem view_of_cuts (h : s.Keeps b) (sound : b.Sound) (bounds : config.InBounds)
    {block : UInt64} (cuts : s.Cuts s' config contract block batch) :
    ∃ view, BatchView.ofBatch s' batch = .ok view ∧ view.batch = batch ∧
      view.totalFee.amount.val = Transfer.fees (s.front config contract) := by
  let carried := (s.front config contract).map fun t =>
    { t with state := .inBatch batch.nonce }
  have ids : batch.ids = carried.map (·.id) := by
    rw [cuts.ids, List.map_map]
    rfl
  have fees : Transfer.fees carried = Transfer.fees (s.front config contract) := by
    rw [Transfer.fees, List.map_map]
    rfl
  have kept : ∀ t ∈ carried, s'.transfer? t.id = .ok (some t) := by
    intro t mem
    obtain ⟨u, front, rfl⟩ := List.mem_map.mp mem
    exact (cuts.carried u front).1
  have room : Transfer.fees carried < Nat.pow 2 256 := fees ▸ h.fees_front_lt sound bounds
  obtain ⟨total, collected, sum⟩ :=
    BatchView.collect_ids kept [] Amount.zero (by simpa using room)
  refine ⟨⟨batch, carried, ⟨total, batch.contract⟩⟩, ?_, rfl, ?_⟩
  · rw [BatchView.ofBatch, ids, collected]
    rfl
  · rw [← fees]
    simpa using sum

/-- The total of a contract foretells the batch that is cut from its front. -/
theorem foretells_of_cuts (h : s.Keeps b) (sound : b.Sound) (bounds : config.InBounds)
    (h' : s'.Keeps b') {block : UInt64} (cuts : s.Cuts s' config contract block batch)
    (sums : f.Sums s config) (same : f.token.raw = contract) : f.Foretells batch s' := by
  obtain ⟨token, total, count⟩ := sums
  rw [same] at token total count
  obtain ⟨lead, first, spelled⟩ := token
  obtain ⟨lead', first', spelled'⟩ := cuts.spelled
  rw [first, Option.some.injEq] at first'
  subst first'
  constructor
  case token => rw [spelled, spelled']
  case count => rw [count, cuts.ids, List.length_map]
  case pending =>
    intro text asked parsed own
    obtain ⟨view, shown, batch_eq, fees⟩ := h.view_of_cuts sound bounds cuts
    refine ⟨view, ?_, batch_eq, Amount.ext (fees.trans total.symm)⟩
    -- the open nonce is kept under the bytes of the contract
    have pending : s'.openNonce? asked = .ok (some batch.nonce) := by
      rw [h'.openNonce?, own, ← h'.openNonce?, cuts.pending]
    have found : Batch.pending? s' asked = .ok (some batch) := by
      rw [Batch.pending?]
      simp only [bind, Except.bind, pending]
      exact cuts.recorded
    rw [Bridge.answer, Bridge.askedAddress, parsed]
    simp only [Except.mapError, bind, Except.bind, found]
    rw [BatchView.ofBatch?, Option.mapM_some, shown]
    rfl

/-- The front of a queue has the largest fees. -/
theorem le_of_sums (h : s.Keeps b) (sums : f.Sums s config) {picks : Finset Transfer}
    (among : ∀ t ∈ picks, t ∈ s.waiting ∧ t.token.contract.raw = f.token.raw)
    (few : picks.card ≤ config.batchSize.toNat) : ∑ t ∈ picks, t.fee.amount.val ≤ f.total.val := by
  rw [sums.total, Transfer.fees, front]
  refine sum_le_sum_take ?_ (fun t mem => mem_queue.mpr (among t mem)) few
  refine (h.legible.descending_queue f.token.raw).imp fun outbids => ?_
  rcases outbids with higher | ⟨equal, _⟩
  · exact Nat.le_of_lt higher
  · exact Nat.le_of_eq equal

end Store.Keeps

/-- What the view of the fees says holds in every reachable store. -/
theorem Store.Keeps.exists_forecast (h : s.Keeps b) (sound : b.Sound) :
    ∃ config totals, s.config = .ok config ∧ s.Forecast config totals := by
  obtain ⟨config, found, bounds⟩ := sound.config_bounds
  have configured := h.config_eq_ok.mpr found
  obtain ⟨totals, all, ascending, contracts, sums⟩ := h.top_ok sound bounds
  refine ⟨config, totals, configured, ?_⟩
  constructor
  case answered =>
    rw [Bridge.answer, configured]
    simp only [Except.map, bind, Except.bind, all]
    rfl
  case ascending => exact ascending
  case contracts => exact contracts
  case foretells =>
    intro env caller text r s' ran
    obtain ⟨c, asked, batch, found', active, parsed, observed, gathers, timeout, _, rfl, keeps⟩ :=
      (Bridge.run_requestBatch_eq_ok h sound).mp (Operation.run_atomic_eq_ok.mp ran)
    obtain rfl : config = c := Option.some.inj (found.symm.trans found')
    have cuts := h.cuts sound gathers timeout keeps
    have grants := h.grants_of_gathers sound active observed gathers
    obtain ⟨f, mem, own⟩ := (contracts asked.raw).mpr grants.waits
    exact ⟨asked, batch, parsed, cuts.own_contract.symm, cuts.absent, cuts.recorded, rfl, f, mem,
      h.foretells_of_cuts sound bounds keeps cuts (sums f mem) own⟩
  case best => exact fun f mem picks among few => h.le_of_sums (sums f mem) among few

/-- The view of the fees predicts the batches that can be cut from every reachable store. -/
theorem Reachable.forecast (h : Reachable s) :
    ∃ config totals, s.config = .ok config ∧ s.Forecast config totals :=
  h.keeps.exists_forecast h.sound

/-- At the seventh block the view has a total for the token of the first send, and a batch of it
can be requested. -/
theorem forecast_after_firstHeight : ∃ s : Store, Reachable s ∧ Chain.firstRequest.Succeeds s ∧
    ∃ config totals, s.config = .ok config ∧ s.Forecast config totals ∧
      ∃ f ∈ totals, f.token.raw = Address.zero.raw := by
  obtain ⟨c, bounds, active, keeps⟩ := Chain.exists_firstHeight
  have reached := Chain.reachable_firstSend.call Chain.firstHeight
  obtain ⟨r, s', ran, _⟩ := Chain.run_request bounds active reached keeps ⟨"relayer", []⟩
  obtain ⟨config, totals, configured, forecast⟩ := reached.forecast
  have waits : Chain.firstTransfer ∈ Store.waiting _ := (Store.mem_waiting keeps).mpr ⟨rfl, rfl⟩
  exact ⟨_, reached, ⟨r, congrArg Prod.fst ran⟩, config, totals, configured, forecast,
    (forecast.contracts _).mpr ⟨_, waits, rfl⟩⟩

end BridgePool
