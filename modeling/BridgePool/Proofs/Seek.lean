import BridgePool.Proofs.Membership
import BridgePool.Proofs.Pool.Page
import BridgePool.Proofs.Pool.Roster

/-!
# Listings and where they go on

The listing of the pool is its roster, and after a cursor of sixty bytes it is the end of the roster
that comes strictly after the position, whether or not the cursor names a row or a token that is
there. The listing of a token is its part of the same (`Reachable.seeksExact`).
-/

namespace BridgePool

/-- What the listings of a store yield, held against its roster. -/
structure Store.SeeksExact (s : Store) : Prop where
  /-- The listing of the pool is the roster. -/
  pool : Listing.all s (Listing.pool s) = .ok s.roster
  /-- After a cursor it is what follows the cursor, which is an end of the roster. -/
  pool_after : ∀ cursor, cursor.length = 60 →
    (∃ listing, Listing.poolAfter s (some cursor) = .ok listing ∧
      Listing.all s listing = .ok (s.roster.filter (·.Follows cursor))) ∧
    s.roster.filter (·.Follows cursor) <:+ s.roster
  /-- A cursor of any other length is refused. -/
  pool_refused_iff : ∀ cursor,
    (∃ fault, Listing.poolAfter s (some cursor) = .error fault) ↔ cursor.length ≠ 60
  /-- The listing of a token is the token's part of the roster. -/
  token : ∀ contract : Address, ∃ listing, Listing.ofContractAfter s contract none = .ok listing ∧
    Listing.all s listing = .ok (s.roster.filter (·.token.contract.raw = contract.raw))
  /-- After a cursor of the token it is the token's part of what follows the cursor. -/
  token_after : ∀ (contract : Address) cursor, cursor.length = 60 →
    cursor.take 20 = contract.raw.val →
      ∃ listing, Listing.ofContractAfter s contract (some cursor) = .ok listing ∧
        Listing.all s listing =
          .ok ((s.roster.filter (·.Follows cursor)).filter (·.token.contract.raw = contract.raw))
  /-- A cursor of any other length, or of another contract, is refused. -/
  token_refused_iff : ∀ (contract : Address) cursor,
    (∃ fault, Listing.ofContractAfter s contract (some cursor) = .error fault) ↔
      cursor.length ≠ 60 ∨ cursor.take 20 ≠ contract.raw.val

variable {s : Store} {b : Book} {ts : List Transfer}

namespace Listing

/-- The listing of the pool yields its part of the roster. -/
theorem all_of_poolAfter (h : s.Keeps b) (sound : b.Sound) (after : Option Bytes)
    (long : ∀ cursor ∈ after, cursor.length = 60) :
    ∃ listing, poolAfter s after = .ok listing ∧
      all s listing = .ok (s.roster.filter fun t => ∀ cursor ∈ after, t.Follows cursor) := by
  obtain ⟨place, rfl⟩ := exists_place long
  obtain ⟨ts, listed, found⟩ := poolAfter_eq h sound place
  refine ⟨_, found, ?_⟩
  have follows := listed.congr fun t _ => Transfer.follows_map_cursorOf.symm
  rw [all_ofTransfers h (listed.kept h), follows.eq_filter_roster h.legible]

/-- The listing of a token yields the token's part of it. -/
theorem all_of_ofContractAfter (h : s.Keeps b) (sound : b.Sound) (contract : Address)
    (after : Option Bytes)
    (own : ∀ cursor ∈ after, cursor.length = 60 ∧ contract.raw.val <+: cursor) :
    ∃ listing, ofContractAfter s contract after = .ok listing ∧
      all s listing = .ok ((s.roster.filter fun t => ∀ cursor ∈ after, t.Follows cursor).filter
        (·.token.contract.raw = contract.raw)) := by
  obtain ⟨place, rfl⟩ := exists_place fun cursor mem => (own cursor mem).1
  have contracts : ∀ p ∈ place, p.contract = contract.raw := fun p placed =>
    prefix_cursorOf_iff.mp (own _ (Option.mem_map_of_mem _ placed)).2
  obtain ⟨ts, listed, found⟩ := ofContractAfter_eq h sound contract place contracts
  refine ⟨_, found, ?_⟩
  have follows := listed.congr fun t waits => show _ ↔ t.token.contract.raw = contract.raw ∧
      ∀ cursor ∈ place.map cursorOf, t.Follows cursor by
    rw [sound.spelled ((Store.mem_waiting h).mp waits).1, Transfer.follows_map_cursorOf]
  rw [all_ofTransfers h (listed.kept h), follows.eq_filter_roster h.legible, List.filter_filter]
  simp only [Bool.decide_and]

/-- A cursor of the wrong length cannot be read. -/
theorem exists_fault_of_ofCursor {cursor : Bytes} (wrong : cursor.length ≠ 60) :
    ∃ fault, ofCursor cursor = .error fault := by
  cases read : ofCursor cursor with
  | error fault => exact ⟨fault, rfl⟩
  | ok named =>
      obtain ⟨p, _, same⟩ := exists_of_ofCursor read
      exact absurd (exists_cursorOf_iff.mp ⟨p, same⟩) wrong

theorem poolAfter_refused_iff {cursor : Bytes} :
    (∃ fault, poolAfter s (some cursor) = .error fault) ↔ cursor.length ≠ 60 := by
  constructor
  · intro ⟨fault, refused⟩ long
    obtain ⟨p, rfl⟩ := exists_cursorOf_iff.mpr long
    rw [poolAfter, ofCursor_cursorOf] at refused
    cases refused
  · intro wrong
    obtain ⟨fault, read⟩ := exists_fault_of_ofCursor wrong
    exact ⟨fault, by rw [poolAfter, read]; rfl⟩

theorem ofContractAfter_refused_iff {contract : Address} {cursor : Bytes} :
    (∃ fault, ofContractAfter s contract (some cursor) = .error fault) ↔
      cursor.length ≠ 60 ∨ cursor.take 20 ≠ contract.raw.val := by
  by_cases long : cursor.length = 60
  · obtain ⟨p, rfl⟩ := exists_cursorOf_iff.mpr long
    have owner : (cursorOf p).take 20 = contract.raw.val ↔ p.contract = contract.raw := by
      rw [← prefix_cursorOf_iff, List.prefix_iff_eq_take, contract.raw.property, eq_comm]
    rw [ofContractAfter, ofCursor_cursorOf]
    simp only [bind, Except.bind, pure, Except.pure, ne_eq, owner, long, not_true, false_or]
    split
    next own => simp [own]
    next foreign => simp [foreign]
  · obtain ⟨fault, read⟩ := exists_fault_of_ofCursor long
    exact iff_of_true ⟨fault, by rw [ofContractAfter, read]; rfl⟩ (.inl long)

end Listing

/-- The listings of every reachable store are its roster, and go on after every cursor. -/
theorem Reachable.seeksExact (h : Reachable s) : s.SeeksExact where
  pool := by
    obtain ⟨listing, found, yields⟩ := Listing.all_of_poolAfter h.keeps h.sound none nofun
    obtain rfl := Except.ok.inj found
    simpa using yields
  pool_after cursor long := by
    obtain ⟨listing, found, yields⟩ := Listing.all_of_poolAfter h.keeps h.sound (some cursor)
      fun _ named => Option.mem_some.mp named ▸ long
    exact ⟨⟨listing, found, by simpa using yields⟩, h.keeps.legible.follows_suffix cursor⟩
  pool_refused_iff _ := Listing.poolAfter_refused_iff
  token contract := by
    obtain ⟨listing, found, yields⟩ :=
      Listing.all_of_ofContractAfter h.keeps h.sound contract none nofun
    exact ⟨listing, found, by simpa using yields⟩
  token_after contract cursor long own := by
    have starts : contract.raw.val <+: cursor := own ▸ List.take_prefix 20 cursor
    obtain ⟨listing, found, yields⟩ := Listing.all_of_ofContractAfter h.keeps h.sound contract
      (some cursor) fun _ named => Option.mem_some.mp named ▸ ⟨long, starts⟩
    exact ⟨listing, found, by simpa using yields⟩
  token_refused_iff _ _ := Listing.ofContractAfter_refused_iff

/-- The first send follows a cursor that names no row, and comes with the listing after it. -/
theorem seeksExact_after_firstSend : ∃ s listing ts, Reachable s ∧ s.SeeksExact ∧
    Listing.poolAfter s (some Listing.firstCursor) = .ok listing ∧
      Listing.all s listing = .ok ts ∧ Chain.firstTransfer ∈ ts := by
  obtain ⟨_, _, _, _, _, _, keeps⟩ := Chain.run_firstSend
  have seeks := Chain.reachable_firstSend.seeksExact
  obtain ⟨⟨listing, found, yields⟩, _⟩ := seeks.pool_after Listing.firstCursor (by decide)
  have waits := (Store.mem_waiting (t := Chain.firstTransfer) keeps).mpr ⟨rfl, rfl⟩
  have follows : Chain.firstTransfer.Follows Listing.firstCursor := by decide
  exact ⟨_, listing, _, Chain.reachable_firstSend, seeks, found, yields,
    List.mem_filter.mpr ⟨Store.mem_roster.mpr waits, decide_eq_true follows⟩⟩

end BridgePool
