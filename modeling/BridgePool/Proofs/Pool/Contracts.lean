import BridgePool.Proofs.Pool.Scan

/-!
# The contracts of the pool

The cursor over the contracts seeks the first fee row from a bound on and goes on from the end of
its contract's rows (`Listing.nextContract`). On any store it comes to an end, having met what one
scan of the fee rows finds (`Listing.yields_scan`). Where every fee row is long enough to be one,
that is the contract of every row, once (`Listing.plainContracts`); where one is not, it is the last
thing that is met (`Listing.contractsExact`).
-/

namespace BridgePool

namespace Listing

variable {s : Store} {bound : Option Bytes} {items items' : List (Except StoreFault RawAddress)}

/-- What the cursor meets from a bound on until there is nothing left. -/
inductive Yields (s : Store) : Option Bytes → List (Except StoreFault RawAddress) → Prop where
  | done {bound : Option Bytes} (nothing : nextContract s bound = none) : Yields s bound []
  | more {bound bound' : Option Bytes} {item : Except StoreFault RawAddress}
      {items : List (Except StoreFault RawAddress)}
      (step : nextContract s bound = some (item, bound')) (rest : Yields s bound' items) :
      Yields s bound (item :: items)

/-- The contracts that the keys of the fee rows name, in the order of the rows and each once. -/
def plainContracts (s : Store) : List Bytes :=
  ((s.rowsUnder [0x02]).map fun row => (row.1.drop 1).take 20).dedup

theorem Yields.unique (run : Yields s bound items) (run' : Yields s bound items') :
    items = items' := by
  induction run generalizing items' with
  | done nothing =>
      cases run' with
      | done => rfl
      | more step => cases nothing.symm.trans step
  | more step _ ih =>
      cases run' with
      | done nothing => cases nothing.symm.trans step
      | more step' rest' =>
          obtain ⟨rfl, rfl⟩ := Prod.mk.inj (Option.some.inj (step.symm.trans step'))
          rw [ih rest']

/-! ## Steps of the cursor -/

variable {start : Bytes} {front rest : List (Bytes × Bytes)} {row : Bytes × Bytes}

theorem rowsUnder_eq_range (s : Store) : s.rowsUnder [0x02] = s.range [0x02] [0x03] := by
  refine List.filter_congr fun row _ => ?_
  rw [Bool.eq_iff_iff, List.isPrefixOf_iff_prefix, decide_eq_true_eq]
  exact Bytes.prefix_iff_range ⟨0x02, List.mem_singleton_self _, by decide⟩

/-- From a bound within them, the fee rows are those of all that are not below it. -/
theorem range_eq_filter (within : [0x02] ≤ start) :
    s.range start [0x03] = (s.range [0x02] [0x03]).filter (start ≤ ·.1) := by
  rw [Store.range, Store.range, List.filter_filter]
  refine List.filter_congr fun row _ => ?_
  rw [← Bool.decide_and, decide_eq_decide]
  constructor
  · rintro ⟨low, high⟩
    exact ⟨low, List.le_trans within low, high⟩
  · rintro ⟨low, _, high⟩
    exact ⟨low, high⟩

/-- What stands below the bound is not met. -/
theorem head?_range (within : [0x02] ≤ start) (rows : s.range [0x02] [0x03] = front ++ rest)
    (passed : ∀ row ∈ front, row.1 < start) :
    (s.range start [0x03]).head? = (rest.filter (start ≤ ·.1)).head? := by
  have nothing : front.filter (start ≤ ·.1) = [] := by
    refine List.filter_eq_nil_iff.mpr fun row mem => ?_
    simpa using passed row mem
  rw [range_eq_filter within, rows, List.filter_append, nothing, List.nil_append]

/-- Behind the fee rows that were passed, the cursor meets what the scan of the others finds. -/
theorem yields_scan (within : [0x02] ≤ start) (rows : s.range [0x02] [0x03] = front ++ rest)
    (passed : ∀ row ∈ front, row.1 < start) :
    Yields s (some start) (scan start (rest.map Prod.fst)) := by
  induction rest generalizing start front with
  | nil =>
      have found := head?_range within rows passed
      exact .done (by simp [nextContract, found])
  | cons row rest ih =>
      have found := head?_range within rows passed
      have rows' : s.range [0x02] [0x03] = (front ++ [row]) ++ rest := by
        rw [rows, List.append_assoc, List.singleton_append]
      -- a bound that is not lower passes this row as well once it is above it
      have passed' {bound : Bytes} (onward : start ≤ bound) (above : row.1 < bound) :
          ∀ other ∈ front ++ [row], other.1 < bound := by
        intro other mem
        rcases List.mem_append.mp mem with mem | mem
        · exact Std.lt_of_lt_of_le (passed other mem) onward
        · rwa [List.mem_singleton.mp mem]
      rw [List.map_cons, scan]
      by_cases below : row.1 < start
      · rw [if_pos below]
        exact ih within rows' (passed' (List.le_refl _) below)
      · rw [if_neg below]
        have reached : start ≤ row.1 := List.not_lt.mp below
        rw [List.filter_cons_of_pos (by simpa using reached), List.head?_cons] at found
        cases read : Cell.feeKey? row.1 with
        | error fault =>
            have step : nextContract s (some start) = some (.error fault, none) := by
              simp [nextContract, found, read]
            exact .more step (.done rfl)
        | ok parts =>
            obtain ⟨contract, id⟩ := parts
            have step : nextContract s (some start) =
                some (.ok contract, some (Bytes.rangeEnd (Cell.feeStart contract))) := by
              simp [nextContract, found, read]
            have ahead := (lt_rangeEnd_iff read).mpr (List.lt_irrefl contract.val)
            have onward : start ≤ Bytes.rangeEnd (Cell.feeStart contract) :=
              List.le_trans reached (List.le_of_lt ahead)
            exact .more step (ih (List.le_trans within onward) rows' (passed' onward ahead))

theorem yields_contracts (s : Store) : Yields s (some [0x02]) (contracts s) :=
  yields_scan (List.le_refl _) (List.nil_append _).symm nofun

/-! ## Rows that are all long enough -/

/-- The keys of the fee rows, in ascending order. -/
def feeRowKeys (s : Store) : List Bytes :=
  (s.rowsUnder [0x02]).map Prod.fst

theorem feeRowKeys_ascending (s : Store) : (feeRowKeys s).Pairwise (· < ·) := by
  rw [feeRowKeys, rowsUnder_eq_range, List.pairwise_map]
  exact Store.sorted_range s _ _

theorem contracts_eq_scan (s : Store) : contracts s = scan [0x02] (feeRowKeys s) := by
  rw [feeRowKeys, rowsUnder_eq_range]
  rfl

theorem plainContracts_eq (s : Store) :
    plainContracts s = ((feeRowKeys s).map fun key => (key.drop 1).take 20).dedup := by
  rw [plainContracts, feeRowKeys, List.map_map]
  rfl

theorem prefix_of_mem_feeRowKeys {key : Bytes} (mem : key ∈ feeRowKeys s) : [0x02] <+: key := by
  obtain ⟨row, inside, rfl⟩ := List.mem_map.mp mem
  exact (Store.mem_rowsUnder.mp inside).2

/-- A key of the right length names the contract that its bytes are. -/
theorem feeKey?_of_length {key : Bytes} (start : [0x02] <+: key) (length : key.length = 61) :
    ∃ (contract : RawAddress) (id : UInt64), Cell.feeKey? key = .ok (contract, id) ∧
      contract.val = (key.drop 1).take 20 := by
  obtain ⟨rest, rfl⟩ := start
  exact ⟨_, _, dif_pos ⟨length, rfl⟩, rfl⟩

section Plain

variable (length : ∀ key ∈ feeRowKeys s, key.length = 61)

include length

/-- Every row can be read, and names the contract that its bytes are. -/
theorem feeKey?_of_mem {key : Bytes} (mem : key ∈ feeRowKeys s) :
    ∃ (contract : RawAddress) (id : UInt64), Cell.feeKey? key = .ok (contract, id) ∧
      contract.val = (key.drop 1).take 20 :=
  feeKey?_of_length (prefix_of_mem_feeRowKeys mem) (length key mem)

/-- Rows in order are of contracts in order, so without repeats the contracts ascend. -/
theorem plainContracts_ascending : (plainContracts s).Pairwise (· < ·) := by
  have ordered : ((feeRowKeys s).map fun key => (key.drop 1).take 20).Pairwise
      fun c d => c = d ∨ c < d := by
    rw [List.pairwise_map]
    refine (feeRowKeys_ascending s).imp_of_mem fun {key key'} mem mem' below => ?_
    obtain ⟨contract, _, read, named⟩ := feeKey?_of_mem length mem
    obtain ⟨contract', _, read', named'⟩ := feeKey?_of_mem length mem'
    rw [← named, ← named']
    by_cases same : contract = contract'
    · exact .inl (congrArg Subtype.val same)
    · exact .inr (contract_lt_of_lt read read' below same)
  rw [plainContracts_eq]
  refine ((ordered.sublist (List.dedup_sublist _)).and (List.nodup_dedup _)).imp ?_
  rintro c d ⟨order, different⟩
  exact order.resolve_left different

/-- Where all fee rows are long enough, the scan finds what going through all of them does. -/
theorem Finds.plain {cs : List RawAddress} {refused : Option (Bytes × StoreFault)}
    (found : Finds [0x02] (feeRowKeys s) cs refused) :
    refused = none ∧ cs.map Subtype.val = plainContracts s := by
  obtain rfl := found.not_refused fun key mem => by
    obtain ⟨_, _, read, _⟩ := feeKey?_of_mem length mem
    exact ⟨_, read⟩
  refine ⟨rfl, Bytes.eq_of_ascending id (List.pairwise_map.mpr found.ascending)
    (plainContracts_ascending length) fun bytes => ?_⟩
  rw [plainContracts_eq, List.mem_dedup, List.mem_map, List.mem_map]
  constructor
  · rintro ⟨c, mem, rfl⟩
    obtain ⟨key, mem, _, _, _, read⟩ := (found.mem_iff c).mp mem
    obtain ⟨contract, _, read', named⟩ := feeKey?_of_mem length mem
    obtain ⟨rfl, _⟩ := Prod.mk.inj (Except.ok.inj (read.symm.trans read'))
    exact ⟨key, mem, named.symm⟩
  · rintro ⟨key, mem, rfl⟩
    obtain ⟨contract, id, read, named⟩ := feeKey?_of_mem length mem
    have within : ¬ key < [0x02] :=
      List.not_lt.mpr (List.IsPrefix.le (prefix_of_mem_feeRowKeys mem))
    exact ⟨contract, (found.mem_iff contract).mpr ⟨key, mem, within, nofun, id, read⟩, named⟩

end Plain

/-! ## Exact contracts -/

/-- What the cursor over the contracts of the fee rows meets. -/
structure ContractsExact (s : Store) : Prop where
  /-- The cursor comes to an end, having met this and nothing else. -/
  run_iff : ∀ items, Yields s (some [0x02]) items ↔ items = contracts s
  /-- Where the keys of all fee rows have the right length, nothing is refused, and the contracts are
  those of all rows without the repeats, in strictly ascending order. -/
  plain : (∀ row ∈ s.rowsUnder [0x02], row.1.length = 61) → ∃ cs : List RawAddress,
    contracts s = cs.map .ok ∧ cs.map Subtype.val = plainContracts s ∧
      cs.Pairwise fun c d => c.val < d.val
  /-- Whatever the rows are, the contracts ascend without repeats, and only the last thing that is met
  can be a row that is refused. -/
  met : ∃ cs refused, Finds [0x02] ((s.rowsUnder [0x02]).map Prod.fst) cs refused ∧
    contracts s = cs.map .ok ++ (refused.map fun r => .error r.2).toList ∧
      cs.Pairwise (fun c d => c.val < d.val) ∧ cs.Nodup

/-- Going from contract to contract is as good as going through all fee rows. -/
theorem contractsExact (s : Store) : ContractsExact s := by
  obtain ⟨cs, refused, found⟩ := exists_finds [0x02] (feeRowKeys_ascending s)
  have met := (contracts_eq_scan s).trans found.scan_eq
  refine ⟨fun items => ?_, fun long => ?_, cs, refused, found, met, found.ascending, ?_⟩
  · constructor
    · intro run
      exact run.unique (yields_contracts s)
    · rintro rfl
      exact yields_contracts s
  · have length : ∀ key ∈ feeRowKeys s, key.length = 61 := List.forall_mem_map.mpr long
    obtain ⟨rfl, plain⟩ := found.plain length
    exact ⟨cs, met.trans (List.append_nil _), plain, found.ascending⟩
  · refine found.ascending.imp ?_
    rintro c _ lower rfl
    exact List.lt_irrefl _ lower

/-- Behind the rows of the highest contract there are no more fee rows. -/
example :
    let low : RawAddress := ⟨List.replicate 20 0x00, List.length_replicate⟩
    let high : RawAddress := ⟨List.replicate 20 0xff, List.length_replicate⟩
    let rows := (Store.empty.insert (Cell.key (.fee high .zero 2)) [0x01]).insert
      (Cell.key (.fee low .zero 1)) [0x01]
    (contracts rows).map Except.toOption = [some low, some high] := by
  decide +kernel

end Listing

end BridgePool
