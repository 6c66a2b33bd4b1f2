import BridgePool.Pool.Listing

/-!
# What a batch would earn

For every contract with waiting transfers, the fees of the transfers that a batch would carry if
it were made now.
-/

namespace BridgePool

/-- The fees that a batch of one token would earn. -/
@[ext] structure FeeTotal where
  /-- The token, spelled as its first transfer spells it. -/
  token : Address
  total : TokenAmount
  count : UInt32
  deriving DecidableEq

namespace FeeTotal

instance : Codec FeeTotal where
  encode f := .record
    [("token", Codec.encode f.token), ("total_fees", Codec.encode f.total),
      ("tx_count", Codec.encode f.count)]
  decode? j := do
    let fields ← j.closedFields? ["token", "total_fees", "tx_count"]
    let token ← Json.required? fields "token"
    let total ← Json.required? fields "total_fees"
    let count ← Json.required? fields "tx_count"
    return ⟨token, total, count⟩

/-- Adds up the fees of a listing's positions. Each transfer is fetched when its turn comes. -/
def collect (s : Store) (total : FeeTotal) : Listing → Except StoreFault FeeTotal
  | [] => .ok total
  | position :: rest => do
    let t ← Listing.fetch s position
    match total.total.add? t.fee.amount with
    | some sum =>
      let token := if total.count = 0 then t.fee.contract else total.token
      collect s ⟨token, sum, total.count + 1⟩ rest
    | none => .error (.overflow total.total.val t.fee.amount.val)

/-- What a batch of at most `count` transfers of one contract would earn. -/
def ofContract (s : Store) (count : Nat) (contract : RawAddress) :
    Except StoreFault FeeTotal :=
  collect s ⟨Address.ofRaw contract, Amount.zero, 0⟩
    ((Listing.ofContract s contract none).take count)

/-- What batches of at most `count` transfers would earn, contracts in ascending order. -/
def top (s : Store) (count : Nat) : Except StoreFault (List FeeTotal) :=
  (Listing.contracts s).mapM fun contract => do
    ofContract s count (← contract)

end FeeTotal

end BridgePool
