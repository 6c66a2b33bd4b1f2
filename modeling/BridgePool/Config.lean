import BridgePool.Address.Optional

/-!
# Configuration and administration records

The bridge's configuration, the pending proposal of a new administrator, and the bounds that
both must keep.
-/

namespace BridgePool

/-- A point in time, in nanoseconds. -/
@[ext] structure Instant where
  nanos : UInt64
  deriving DecidableEq

namespace Instant

/-- Whole seconds. -/
def seconds (t : Instant) : Nat :=
  t.nanos.toNat / 1000000000

/-- The instant some seconds later, if the clock reaches it. -/
def later? (t : Instant) (seconds : Nat) : Option Instant :=
  let nanos := t.nanos.toNat + seconds * 1000000000
  if nanos < UInt64.size then some ⟨UInt64.ofNat nanos⟩ else none

instance : Codec Instant where
  encode t := .text (Decimal.text t.nanos.toNat)
  decode?
    | .text s => (Decimal.signed? s.toList).bind fun n =>
      if n < UInt64.size then some ⟨UInt64.ofNat n⟩ else none
    | _ => none

end Instant

/-- The bridge's configuration. -/
@[ext] structure Config where
  admin : String
  paused : Bool
  /-- How many transfers a batch may carry. -/
  batchSize : UInt32
  /-- How many blocks of the far chain a new batch stays valid. -/
  timeoutBlocks : UInt64
  bridge : OptionalAddress
  deriving DecidableEq

/-- A parameter out of its bounds. -/
inductive ConfigFault where
  | batchSize
  | timeoutBlocks
  deriving DecidableEq

namespace Config

/-- The largest batch a configuration may ask for. -/
def maxBatchSize : UInt32 := 1000

/-- The batch size when none is given. -/
def defaultBatchSize : UInt32 := 100

/-- The lifetime of a batch when none is given. -/
def defaultTimeoutBlocks : UInt64 := 3600

/-- How long a proposed administrator has to wait, in seconds. -/
def adminDelay : Nat := 604800

/-- A batch carries between one and `maxBatchSize` transfers. -/
def checkBatchSize (size : UInt32) : Except ConfigFault Unit :=
  if size = 0 ∨ maxBatchSize < size then .error .batchSize else .ok ()

/-- A batch lives for at least one block. -/
def checkTimeoutBlocks (blocks : UInt64) : Except ConfigFault Unit :=
  if blocks = 0 then .error .timeoutBlocks else .ok ()

/-- The fields of a configuration in their JSON record. -/
def fields (c : Config) : List (String × Json) :=
  [("admin", Codec.encode c.admin), ("paused", Codec.encode c.paused),
    ("batch_size", Codec.encode c.batchSize),
    ("batch_timeout_blocks", Codec.encode c.timeoutBlocks),
    ("bridge_ethereum_address", Codec.encode c.bridge)]

instance : Codec Config where
  encode c := .record c.fields
  decode? j := do
    let fields ← j.closedFields?
      ["admin", "paused", "batch_size", "batch_timeout_blocks", "bridge_ethereum_address"]
    let admin ← Json.required? fields "admin"
    let paused ← Json.required? fields "paused"
    let batchSize ← Json.required? fields "batch_size"
    let timeoutBlocks ← Json.required? fields "batch_timeout_blocks"
    let bridge ← Json.required? fields "bridge_ethereum_address"
    return ⟨admin, paused, batchSize, timeoutBlocks, bridge⟩

end Config

/-- The wording of a configuration fault, without its heading. -/
def ConfigFault.reason : ConfigFault → String
  | .batchSize =>
    "batch_size must be between 1 and " ++ Decimal.text Config.maxBatchSize.toNat
  | .timeoutBlocks => "batch_timeout_blocks must be greater than zero"

/-- A proposed administrator, and the time from which the proposal can be accepted. -/
@[ext] structure Proposal where
  candidate : String
  notBefore : Instant
  deriving DecidableEq

instance : Codec Proposal where
  encode p := .record
    [("new_address", Codec.encode p.candidate), ("execute_after", Codec.encode p.notBefore)]
  decode? j := do
    let fields ← j.closedFields? ["new_address", "execute_after"]
    let candidate ← Json.required? fields "new_address"
    let notBefore ← Json.required? fields "execute_after"
    return ⟨candidate, notBefore⟩

/-- The name and version of the program that wrote a store. -/
@[ext] structure Release where
  name : String
  version : String
  deriving DecidableEq

/-- This program. -/
def Release.current : Release :=
  ⟨"crates.io:gravity-bridge", "0.1.0"⟩

instance : Codec Release where
  encode r := .record [("contract", Codec.encode r.name), ("version", Codec.encode r.version)]
  decode? j := do
    let fields ← j.closedFields? ["contract", "version"]
    let name ← Json.required? fields "contract"
    let version ← Json.required? fields "version"
    return ⟨name, version⟩

end BridgePool
