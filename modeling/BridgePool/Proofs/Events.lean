import BridgePool.Proofs.Book.Sound
import BridgePool.Proofs.Bridge.Outcome
import BridgePool.Proofs.Codec

/-!
# Reading the events of batches

The event of a batch gives the batch back as it was made (`Event.told?_ofBatch`). So the answer to
the end of a block tells of every batch that timed out, each by an event of its own
(`Book.Expires.timesOut`).

* `Event.told?` — the batch that an event tells of, read back from its texts;
* `BatchState.reported?` — what a kind of events reports of it;
* `Response.TimesOut` — an answer that reports a height and some timeouts, as a reader sees it.
-/

namespace BridgePool

/-! ## Texts -/

/-- The word that a text spells. -/
def readWord? (text : String) : Option UInt64 :=
  Codec.decode? (.word text)

/-- The words that a text spells between commas. -/
def readWords? (text : String) : Option (List UInt64) :=
  (text.toList.splitOn ',').mapM fun word => readWord? (String.ofList word)

theorem readWord?_spellWord (n : UInt64) : readWord? (spellWord n) = some n :=
  LawfulCodec.decode?_encode n

/-- A list of words is read back from between its commas; the empty one has no spelling. -/
theorem readWords?_intercalate {ids : List UInt64} (listed : ids ≠ []) :
    readWords? (String.intercalate "," (ids.map spellWord)) = some ids := by
  -- no spelling has a comma of its own
  have digits : ∀ word ∈ ids.map fun n => (spellWord n).toList, ',' ∉ word := by
    intro word mem comma
    obtain ⟨n, _, rfl⟩ := List.mem_map.mp mem
    rw [spellWord, Decimal.text, String.toList_ofList] at comma
    exact absurd (Decimal.isDigit_of_mem_digits comma) (by decide)
  have parts := List.splitOn_intercalate ',' digits (by simpa using listed)
  rw [readWords?, String.toList_intercalate, List.map_map]
  show (List.splitOn ',' ([','].intercalate (ids.map fun n => (spellWord n).toList))).mapM _ = _
  rw [parts, List.mapM_map]
  have each : (fun word => readWord? (String.ofList word)) ∘ (fun n => (spellWord n).toList) =
      fun n => some n := by
    funext n
    rw [Function.comp_apply, String.ofList_toList, readWord?_spellWord]
  rw [each]
  exact List.mapM_pure.trans (by simp)

/-! ## Events -/

/-- The value of a named text of an event. -/
def Event.attribute? (e : Event) (name : String) : Option String :=
  e.attributes.lookup name

/-- The batch that an event tells of, as it was made. The count of its ids must be right. -/
def Event.told? (e : Event) : Option Batch := do
  let nonce ← readWord? (← e.attribute? "batch_nonce")
  let contract ← (Address.parse (← e.attribute? "token_contract")).toOption
  let timeout ← readWord? (← e.attribute? "batch_timeout")
  let block ← readWord? (← e.attribute? "block")
  let ids ← readWords? (← e.attribute? "transaction_ids")
  if e.attribute? "tx_count" = some (Decimal.text ids.length) then
    return { nonce, timeout, ids, contract, block, state := .open }
  else none

/-- The state that a kind of events reports. -/
def BatchState.reported? : String → Option BatchState
  | "outgoing_batch_created" => some .open
  | "outgoing_batch_executed" => some .executed
  | "outgoing_batch_cancelled" => some .cancelled
  | "outgoing_batch_timed_out" => some .timedOut
  | _ => none

/-- The batch that timed out, as it was while it was open, if an event reports just that. -/
def Event.timedOut? (e : Event) : Option Batch :=
  if BatchState.reported? e.kind = some .timedOut then e.told? else none

/-- The event of a batch tells of that batch. -/
theorem Event.told?_ofBatch (kind : String) {batch : Batch} (listed : batch.ids ≠ []) :
    (ofBatch kind batch).told? = some { batch with state := .open } := by
  simp [told?, attribute?, ofBatch, lookup_named_cons, readWord?_spellWord,
    readWords?_intercalate listed, Address.parse_spelling, Except.toOption]

theorem Event.told?_ofBatch_of_open (kind : String) {batch : Batch} (listed : batch.ids ≠ [])
    (opened : batch.state = .open) : (ofBatch kind batch).told? = some batch := by
  rw [told?_ofBatch kind listed, ← opened]

theorem Event.timedOut?_ofBatch {batch : Batch} (listed : batch.ids ≠ [])
    (opened : batch.state = .open) :
    (ofBatch "outgoing_batch_timed_out" batch).timedOut? = some batch :=
  (if_pos rfl).trans (told?_ofBatch_of_open _ listed opened)

/-! ## The end of a block -/

/-- The answer to the end of a block, as it is written and as it is read: it records the height, and
reports that these batches timed out, once each and in this order. -/
structure Response.TimesOut (r : Response) (now : UInt64) (bs : List Batch) : Prop where
  written : r = Bridge.blockEnded now bs
  height : (r.attributes.lookup "eth_block_height").bind readWord? = some now
  count : r.attributes.lookup "timed_out" = some (Decimal.text bs.length)
  /-- Every event is of the kind that reports a timeout, and tells of the batch in its place. -/
  events : r.events.map Event.timedOut? = bs.map some
  messages : r.messages = []

variable {b : Book} {now : UInt64} {bs : List Batch}

/-- The batches of a book that a height times out are told of by the answer. -/
theorem Book.Expires.timesOut (h : b.Expires now bs) (grouped : b.Grouped) :
    (Bridge.blockEnded now bs).TimesOut now bs where
  written := rfl
  height := by
    simp [Bridge.blockEnded, lookup_named_cons, readWord?_spellWord]
  count := by
    simp [Bridge.blockEnded, lookup_named_cons]
  events := by
    rw [Bridge.blockEnded, List.map_map]
    refine List.map_congr_left fun batch mem => ?_
    obtain ⟨recorded, opened, _⟩ := h.mem_iff.mp mem
    exact Event.timedOut?_ofBatch (grouped.ids_ne_nil recorded) opened
  messages := rfl

end BridgePool
