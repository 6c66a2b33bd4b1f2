import BridgePool.Proofs.Forecast
import BridgePool.Proofs.Pool.Page
import BridgePool.Proofs.Spelling
import BridgePool.Proofs.Views

/-!
# Every query is answered

A query on a reachable store fails only if what it names cannot be read: a text that is no address
or no denom, or a cursor of the wrong length or of another contract (`Reachable.alwaysAnswers`).
No row of the store, and no sum of fees, stands in the way of an answer.
-/

namespace BridgePool

variable {s : Store} {b : Book} {q : Query}

/-- The addresses, denoms and cursors of the query can be read. -/
def Query.WellPosed : Query → Prop
  | .waiting after _ => ∀ cursor ∈ after, cursor.length = 60
  | .waitingOf text after _ => ∃ contract, Address.parse text = .ok contract ∧
      ∀ cursor ∈ after, cursor.length = 60 ∧ contract.raw.val <+: cursor
  | .pendingBatch text => ∃ contract, Address.parse text = .ok contract
  | .denomOf text => ∃ contract, Address.parse text = .ok contract
  | .contractOf denom => ∃ contract, Denom.contract denom = .ok contract
  | _ => True

/-- The row reads as what the cell holds. -/
def Cell.Reads (row : Bytes) : Cell → Prop
  | .transfer id => ∃ t : Transfer, Codec.ofBytes? row = some t ∧ t.id = id
  | .fee _ _ _ => row = [0x01]
  | .batch nonce => ∃ batch : Batch, Codec.ofBytes? row = some batch ∧ batch.nonce = nonce
  | .nextId => ∃ n, word? row = .ok n
  | .lastNonce => ∃ n, word? row = .ok n
  | .openBatch _ => ∃ n, word? row = .ok n
  | .locked _ => ∃ amount : CoinAmount, Codec.ofBytes? row = some amount
  | .config => ∃ config : Config, Codec.ofBytes? row = some config
  | .proposal => ∃ proposal : Proposal, Codec.ofBytes? row = some proposal
  | .observedHeight => ∃ height : UInt64, Codec.ofBytes? row = some height
  | .release => ∃ release : Release, Codec.ofBytes? row = some release

/-- The store answers every query that can be read. -/
structure Store.AlwaysAnswers (s : Store) : Prop where
  answered_iff : ∀ q, (∃ a, Bridge.answer s q = .ok a) ↔ q.WellPosed
  /-- Every row is that of a cell, and reads as what the cell holds. -/
  rows_read : ∀ key row, s.get? key = some row → ∃ c : Cell, c.key = key ∧ c.Reads row
  /-- Every fee row leads to a transfer. -/
  fee_rows_lead : ∀ key row, key.head? = some 0x02 → s.get? key = some row →
    ∃ contract id t, Cell.feeKey? key = .ok (contract, id) ∧ s.transfer? id = .ok (some t)
  /-- A thousand fees can be added up, of whichever transfers. -/
  fees_fit : ∀ ts : List Transfer, (∀ t ∈ ts, s.transfer? t.id = .ok (some t)) →
    ts.length ≤ 1000 → Transfer.fees ts < Nat.pow 2 256

/-! ## Answers from a book -/

/-- How many transfers of a contract the view of the fees adds up. -/
def FeeTotal.asked (config : Config) (count : Option UInt32) : UInt32 :=
  count.elim config.batchSize (min · Config.maxBatchSize)

theorem FeeTotal.asked_le {config : Config} (bounds : config.InBounds) (count : Option UInt32) :
    (asked config count).toNat ≤ 1000 := by
  cases count with
  | none => exact UInt32.le_iff_toNat_le.mp bounds.batchSize_le
  | some n =>
      rw [asked, Option.elim_some, UInt32.toNat_min]
      exact Nat.min_le_right _ _

theorem Store.Keeps.answer_fees {config : Config} (h : s.Keeps b)
    (configured : b.config = some config) {count : Option UInt32} {totals : List FeeTotal}
    (all : FeeTotal.top s (FeeTotal.asked config count).toNat = .ok totals) :
    Bridge.answer s (.fees count) = .ok (.fees totals) := by
  cases count with
  | none =>
      rw [Bridge.answer, h.config_eq_ok.mpr configured]
      simp only [Except.map, bind, Except.bind]
      rw [show FeeTotal.top s config.batchSize.toNat = _ from all]
      rfl
  | some n =>
      rw [Bridge.answer]
      simp only [pure, Except.pure, bind, Except.bind]
      rw [show FeeTotal.top s (min n Config.maxBatchSize).toNat = _ from all]
      rfl

/-- A query about a contract is answered if the text is an address that it is answered for. -/
theorem Bridge.asks_iff {α : Type} {text : String} {find : Address → Except QueryFault α} :
    (∃ a, (askedAddress text >>= find) = .ok a) ↔
      ∃ contract, Address.parse text = .ok contract ∧ ∃ a, find contract = .ok a := by
  rw [askedAddress]
  cases Address.parse text <;> simp [Except.mapError, bind, Except.bind]

namespace Store.Keeps

/-! ## Pages -/

theorem answer_waiting_iff (h : s.Keeps b) (sound : b.Sound) {after : Option Bytes}
    {limit : Option UInt32} : (∃ a, Bridge.answer s (.waiting after limit) = .ok a) ↔
      ∀ cursor ∈ after, cursor.length = 60 := by
  constructor
  · rintro ⟨a, answered⟩ cursor ⟨⟩
    cases read : Listing.ofCursor cursor with
    | error fault =>
        simp only [Bridge.answer, Listing.poolAfter, read, bind, Except.bind,
          Except.mapError] at answered
        cases answered
    | ok named =>
        obtain ⟨owner, key⟩ := named
        obtain ⟨p, _, same⟩ := Listing.exists_of_ofCursor read
        exact Listing.exists_cursorOf_iff.mp ⟨p, same⟩
  · intro long
    obtain ⟨place, rfl⟩ := Listing.exists_place long
    obtain ⟨ts, _, answers⟩ := Scope.answer_eq h sound .pool place fun _ _ => trivial
    exact ⟨_, answers limit⟩

theorem answer_waitingOf_iff (h : s.Keeps b) (sound : b.Sound) {text : String} {contract : Address}
    (parsed : Address.parse text = .ok contract) {after : Option Bytes} {limit : Option UInt32} :
    (∃ a, Bridge.answer s (.waitingOf text after limit) = .ok a) ↔
      ∀ cursor ∈ after, cursor.length = 60 ∧ contract.raw.val <+: cursor := by
  obtain rfl := Address.parse_eq_ok.mp parsed
  constructor
  · rintro ⟨a, answered⟩
    rcases Listing.cursor_cases contract after with ⟨place, own, rfl⟩ | ⟨fault, refused⟩
    · rintro _ named
      obtain ⟨p, placed, rfl⟩ := Option.mem_map.mp named
      exact ⟨Listing.exists_cursorOf_iff.mp ⟨p, rfl⟩,
        Listing.prefix_cursorOf_iff.mpr (own p placed)⟩
    · simp only [Bridge.answer, Bridge.askedAddress, Address.parse_spelling, refused, bind,
        Except.bind, Except.mapError] at answered
      cases answered
  · intro own
    obtain ⟨place, rfl⟩ := Listing.exists_place fun cursor named => (own cursor named).1
    obtain ⟨ts, _, answers⟩ := Scope.answer_eq h sound (.token contract) place fun p placed =>
      Listing.prefix_cursorOf_iff.mp (own _ (Option.mem_map_of_mem _ placed)).2
    exact ⟨_, answers limit⟩

/-! ## Every query -/

/-- A query is answered exactly when it can be read. -/
theorem answered_iff (h : s.Keeps b) (sound : b.Sound) :
    (∃ a, Bridge.answer s q = .ok a) ↔ q.WellPosed := by
  obtain ⟨config, configured, bounds⟩ := sound.config_bounds
  cases q with
  | waiting after limit => exact h.answer_waiting_iff sound
  | waitingOf text after limit =>
      constructor
      · intro answered
        obtain ⟨contract, parsed, _⟩ := Bridge.asks_iff.mp answered
        exact ⟨contract, parsed, (h.answer_waitingOf_iff sound parsed).mp answered⟩
      · rintro ⟨contract, parsed, own⟩
        exact (h.answer_waitingOf_iff sound parsed).mpr own
  | transfer id =>
      refine iff_of_true ⟨.transfer (b.transfer id), ?_⟩ trivial
      rw [Bridge.answer, h.transfer?]
      rfl
  | fees count =>
      obtain ⟨totals, all, _⟩ := h.exists_totals sound (FeeTotal.asked_le bounds count)
      exact iff_of_true ⟨_, h.answer_fees configured all⟩ trivial
  | pendingBatch text =>
      constructor
      · intro answered
        obtain ⟨contract, parsed, _⟩ := Bridge.asks_iff.mp answered
        exact ⟨contract, parsed⟩
      · rintro ⟨contract, parsed⟩
        obtain ⟨_, answered, _⟩ := h.answer_pending sound parsed
        exact ⟨_, answered⟩
  | batch nonce =>
      obtain ⟨_, answered, _⟩ := h.answer_batch sound nonce
      exact iff_of_true ⟨_, answered⟩ trivial
  | batches after limit =>
      obtain ⟨_, answered, _⟩ := h.answer_batches sound after limit
      exact iff_of_true ⟨_, answered⟩ trivial
  | contractOf denom =>
      rw [Query.WellPosed, Bridge.answer]
      cases Denom.contract denom <;> simp [Except.map, Except.mapError]
  | denomOf text =>
      rw [Bridge.answer, Bridge.asks_iff]
      exact exists_congr fun contract => and_iff_left ⟨_, rfl⟩
  | locked denom =>
      refine iff_of_true ⟨.locked denom ((b.locked denom).getD Amount.zero), ?_⟩ trivial
      rw [Bridge.answer, h.locked]
      rfl
  | config =>
      refine iff_of_true ⟨.config config, ?_⟩ trivial
      rw [Bridge.answer, h.config_eq_ok.mpr configured]
      rfl
  | observedHeight =>
      refine iff_of_true ⟨.observedHeight (b.height.getD 0), ?_⟩ trivial
      rw [Bridge.answer, h.observedHeight]
      rfl
  | proposal =>
      refine iff_of_true ⟨.proposal b.proposal, ?_⟩ trivial
      rw [Bridge.answer, h.proposal?]
      rfl

end Store.Keeps

/-! ## Every row -/

/-- What a row is written as can be read. -/
theorem Cell.Admits.reads {c : Cell} {row : Bytes} (admits : c.Admits row) : c.Reads row := by
  cases admits with
  | transfer t => exact ⟨t, Codec.ofBytes?_bytes t, rfl⟩
  | fee => rfl
  | batch batch => exact ⟨batch, Codec.ofBytes?_bytes batch, rfl⟩
  | nextId n => exact ⟨n, word?_word n⟩
  | lastNonce n => exact ⟨n, word?_word n⟩
  | openBatch n => exact ⟨n, word?_word n⟩
  | locked amount => exact ⟨amount, Codec.ofBytes?_bytes amount⟩
  | config config => exact ⟨config, Codec.ofBytes?_bytes config⟩
  | proposal proposal => exact ⟨proposal, Codec.ofBytes?_bytes proposal⟩
  | observedHeight height => exact ⟨height, Codec.ofBytes?_bytes height⟩
  | release release => exact ⟨release, Codec.ofBytes?_bytes release⟩

theorem Store.Keeps.always_answers (h : s.Keeps b) (sound : b.Sound) : s.AlwaysAnswers where
  answered_iff _ := h.answered_iff sound
  rows_read key row found := by
    obtain ⟨c, own, admits⟩ := h.legible key row found
    exact ⟨c, own, admits.reads⟩
  fee_rows_lead key row kind found := by
    obtain ⟨_, t, waits, rfl⟩ := (fee_row_iff h sound kind).mp found
    refine ⟨_, _, t, Cell.feeKey?_key _ _ _, ?_⟩
    rw [h.transfer?, ((mem_waiting h).mp waits).1]
  fees_fit ts kept few := by
    refine sound.fees_lt (fun t mem => ?_) few
    have found := kept t mem
    rwa [h.transfer?, Except.ok.injEq] at found

/-- Every reachable store answers every query that can be read. -/
theorem Reachable.alwaysAnswers (h : Reachable s) : s.AlwaysAnswers :=
  h.keeps.always_answers h.sound

/-- The first batch is shown, and a page is found even after a cursor that names nothing. -/
theorem alwaysAnswers_after_firstRequest : ∃ s batch, Reachable s ∧ s.AlwaysAnswers ∧
    batch ∈ s.batchesOpen ∧ (∃ a, Bridge.answer s (.batch batch.nonce) = .ok a) ∧
      ∃ a, Bridge.answer s (.waiting (some (List.replicate 60 0xff)) (some 0)) = .ok a := by
  obtain ⟨c, s, reached, keeps⟩ := Chain.run_firstRequest
  have answers := reached.alwaysAnswers
  have opened : Chain.firstBatch c ∈ s.batchesOpen :=
    (Store.mem_batchesOpen keeps).mpr ⟨rfl, rfl⟩
  refine ⟨s, _, reached, answers, opened, (answers.answered_iff _).mpr trivial,
    (answers.answered_iff _).mpr ?_⟩
  rintro _ ⟨⟩
  exact List.length_replicate

end BridgePool
