import BridgePool.Store.Rows

/-!
# Listings of the pool

The fee rows of a contract, read from the end, list its waiting transfers by descending fee and,
among equal fees, by descending id. The listing of the whole pool goes through the contracts in
ascending byte order.

A listing is kept as the positions that its rows name; the transfers are fetched only when they
are taken, so a row past the last one taken cannot stop anything. A row that is no fee row is a
position that cannot be fetched.

A cursor is a fee row's key without its first byte; a listing resumes strictly after it.
-/

namespace BridgePool

/-- A listing: for each of its rows the transfer it names, or why it names none. -/
abbrev Listing := List (Except StoreFault UInt64)

namespace Listing

/-- The transfer at a position, which must be there. -/
def fetch (s : Store) (position : Except StoreFault UInt64) : Except StoreFault Transfer := do
  let id ← position
  match ← s.transfer? id with
  | some t => return t
  | none => .error (.missingTransfer id)

/-- The first transfers of a listing, at most `count` of them. -/
def first (s : Store) (listing : Listing) (count : Nat) : Except StoreFault (List Transfer) :=
  (listing.take count).mapM (fetch s)

/-- All transfers of a listing. -/
def all (s : Store) (listing : Listing) : Except StoreFault (List Transfer) :=
  listing.mapM (fetch s)

/-- The listing of one contract, below the fee row `before` if one is given. -/
def ofContract (s : Store) (contract : RawAddress) (before : Option Bytes) : Listing :=
  let start := Cell.feeStart contract
  let rows := s.range start (before.getD (Bytes.rangeEnd start))
  rows.reverse.map fun row => (Cell.feeKey? row.1).map Prod.snd

/-- The contracts of the given fee rows, from the key `bound` on: the contract of the first row
that is not below the bound, and then on from the end of that contract's rows. A row that is no
fee row ends the list. -/
def scan (bound : Bytes) : List Bytes → List (Except StoreFault RawAddress)
  | [] => []
  | key :: rest =>
    if key < bound then scan bound rest
    else
      match Cell.feeKey? key with
      | .ok (contract, _) =>
        .ok contract :: scan (Bytes.rangeEnd (Cell.feeStart contract)) rest
      | .error fault => [.error fault]

/-- The contracts with a waiting transfer, from the key `bound` on, in ascending order. -/
def contractsFrom (s : Store) (bound : Bytes) : List (Except StoreFault RawAddress) :=
  scan bound ((s.range [0x02] [0x03]).map Prod.fst)

/-- The contracts with a waiting transfer, in ascending order. -/
def contracts (s : Store) : List (Except StoreFault RawAddress) :=
  contractsFrom s [0x02]

/-- A step of the cursor over these contracts: the contract of the first fee row from the bound on,
and the end of that contract's rows to go on from. There is nothing to go on from behind a row that
is no fee row. -/
def nextContract (s : Store) (bound : Option Bytes) :
    Option (Except StoreFault RawAddress × Option Bytes) := do
  let start ← bound
  let row ← (s.range start [0x03]).head?
  match Cell.feeKey? row.1 with
  | .ok (contract, _) => return (.ok contract, some (Bytes.rangeEnd (Cell.feeStart contract)))
  | .error fault => return (.error fault, none)

/-- The listings of the given contracts, one after the other. -/
def ofContracts (s : Store) (contracts : List (Except StoreFault RawAddress)) : Listing :=
  contracts.flatMap fun
    | .ok contract => ofContract s contract none
    | .error fault => [.error fault]

/-- The listing of the whole pool. -/
def pool (s : Store) : Listing :=
  ofContracts s (contracts s)

/-! ## Cursors -/

/-- The position of a transfer in its listing. -/
def cursor (t : Transfer) : Bytes :=
  (Store.feeCell t).key.drop 1

/-- The contract and the fee row that a cursor names. -/
def ofCursor (cursor : Bytes) : Except StoreFault (RawAddress × Bytes) :=
  let key := 0x02 :: cursor
  (Cell.feeKey? key).map fun (contract, _) => (contract, key)

/-- The listing of one contract, strictly after the cursor if one is given. -/
def ofContractAfter (s : Store) (contract : Address) (after : Option Bytes) :
    Except StoreFault Listing :=
  match after with
  | none => .ok (ofContract s contract.raw none)
  | some cursor => do
    let (owner, key) ← ofCursor cursor
    if owner = contract.raw then return ofContract s contract.raw (some key)
    else .error (.foreignCursor (Address.ofRaw owner) contract)

/-- The listing of the whole pool, strictly after the cursor if one is given: the rest of the
cursor's contract, then every later contract. -/
def poolAfter (s : Store) (after : Option Bytes) : Except StoreFault Listing :=
  match after with
  | none => .ok (pool s)
  | some cursor => do
    let (owner, key) ← ofCursor cursor
    return ofContract s owner (some key)
      ++ ofContracts s (contractsFrom s (Bytes.rangeEnd (Cell.feeStart owner)))

/-! ## Pages -/

/-- One page of a listing. -/
structure Page where
  transfers : List Transfer
  /-- Where the next page starts, if the listing goes on. -/
  next : Option Bytes
  deriving DecidableEq

/-- The first `limit` transfers of a listing. One more is fetched, to see whether the listing
goes on; a page of no transfers has no position to go on from. -/
def page (s : Store) (listing : Listing) (limit : Nat) : Except StoreFault Page := do
  let transfers ← first s listing (limit + 1)
  if limit < transfers.length then
    let shown := transfers.take limit
    return ⟨shown, shown.getLast?.map cursor⟩
  else return ⟨transfers, none⟩

end Listing

end BridgePool
