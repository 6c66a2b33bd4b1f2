import BridgePool.Escrow

/-!
# What a call answers

A `Response` holds attributes, the lifecycle events of batches, and requests to the bank, each in
the order they were made. `Response.json` is its written form.
-/

namespace BridgePool

/-- Something the host publishes: a kind and named texts. -/
@[ext] structure Event where
  kind : String
  attributes : List (String × String)
  deriving DecidableEq

/-- What a successful call answers. -/
@[ext] structure Response where
  attributes : List (String × String)
  events : List Event
  messages : List BankMessage
  deriving DecidableEq

/-- The decimal text of a machine word. -/
def spellWord (n : UInt64) : String :=
  Decimal.text n.toNat

namespace Event

/-- A batch's numbers and ids as texts. The ids are separated by commas. -/
def ofBatch (kind : String) (b : Batch) : Event where
  kind := kind
  attributes :=
    [("batch_nonce", spellWord b.nonce), ("token_contract", b.contract.spelling),
      ("batch_timeout", spellWord b.timeout), ("block", spellWord b.block),
      ("tx_count", Decimal.text b.ids.length),
      ("transaction_ids", String.intercalate "," (b.ids.map spellWord))]

end Event

/-! ## Written form -/

/-- Each named text as a record of its key and its value. -/
def attributesJson (attributes : List (String × String)) : Json :=
  .list (attributes.map fun (key, value) => .record [("key", .text key), ("value", .text value)])

/-- A bank request as a record named for what it asks. -/
def BankMessage.json : BankMessage → Json
  | .send receiver coins =>
    bank "send" [("to_address", .text receiver), ("amount", Codec.encodeList coins)]
  | .burn coins => bank "burn" [("amount", Codec.encodeList coins)]
where
  bank (request : String) (fields : List (String × Json)) : Json :=
    .record [("bank", .record [(request, .record fields)])]

/-- An event as a record of its kind and its texts. -/
def Event.json (e : Event) : Json :=
  .record [("type", .text e.kind), ("attributes", attributesJson e.attributes)]

namespace Response

/-- A request as the host takes it: no gas limit, and no answer wanted. -/
def submessage (m : BankMessage) : Json :=
  .record
    [("id", .word "0"), ("msg", m.json), ("gas_limit", Json.null), ("reply_on", .text "never")]

/-- The response as the host takes it; it carries no data of its own. -/
def json (r : Response) : Json :=
  .record
    [("attributes", attributesJson r.attributes), ("events", .list (r.events.map Event.json)),
      ("messages", .list (r.messages.map submessage)), ("data", Json.null)]

end Response

end BridgePool
