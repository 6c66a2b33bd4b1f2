import BridgePool.Proofs.Pool.Queue

/-!
# Listings after a position

A listing that resumes after a position holds the waiting transfers whose positions come later, in
listing order. `Store.Listed` says so of a list of transfers, and determines it
(`Store.Listed.unique`).

* `Listing.ofContractAfter_eq` — the listing of one contract, read backwards from the position's
  key;
* `Listing.poolAfter_eq` — the listing of the pool: the rest of the position's contract, and then
  the queues of the later contracts, which `Listing.scan` finds by skipping from the end of one
  contract's rows to the next.
-/

namespace BridgePool

/-! ## Listing order -/

namespace Position

variable {p q r : Position}

instance : DecidableRel before :=
  fun _ _ => inferInstanceAs (Decidable (_ ∨ _))

theorem before.trans (first : p.before q) (second : q.before r) : p.before r := by
  rcases first with lower | ⟨same, first⟩
  · rcases second with lower' | ⟨same', _⟩
    · exact .inl (List.lt_trans lower lower')
    · exact .inl (same' ▸ lower)
  · rcases second with lower' | ⟨same', second⟩
    · exact .inl (same ▸ lower')
    · refine .inr ⟨same.trans same', ?_⟩
      simp only [UInt64.lt_iff_toNat_lt] at *
      omega

/-- Keys in order have their contracts in order. -/
theorem contract_lt_of_key_lt (below : p.cell.key < q.cell.key)
    (different : p.contract ≠ q.contract) : p.contract.val < q.contract.val :=
  (Cell.fee_key_lt_iff.mp below).resolve_right fun ⟨same, _⟩ => different same

/-- The rows of a contract end where those of the later contracts begin. -/
theorem key_lt_rangeEnd_iff {contract : RawAddress} :
    p.cell.key < Bytes.rangeEnd (Cell.feeStart contract) ↔ ¬ contract.val < p.contract.val :=
  Cell.fee_key_lt_rangeEnd_iff

end Position

namespace Transfer

variable {t u v : Transfer}

theorem listedBefore_iff : t.listedBefore u ↔ t.position.before u.position :=
  Iff.rfl

theorem not_listedBefore_self : ¬ t.listedBefore t :=
  fun before => Position.before.irrefl (listedBefore_iff.mp before)

theorem listedBefore.trans (first : t.listedBefore u) (second : u.listedBefore v) :
    t.listedBefore v :=
  Position.before.trans (p := t.position) (q := u.position) (r := v.position) first second

theorem listedBefore.asymm (h : t.listedBefore u) : ¬ u.listedBefore t :=
  fun back => not_listedBefore_self (h.trans back)

variable {ts : List Transfer} (ordered : ts.Pairwise listedBefore)

include ordered

theorem nodup_of_ordered : ts.Nodup := by
  apply ordered.imp
  rintro t _ before rfl
  exact not_listedBefore_self before

/-- What comes after the last row comes after all of them. -/
theorem after_of_last (after : ∀ last ∈ ts.getLast?, last.listedBefore u) :
    ∀ t ∈ ts, t.listedBefore u := by
  rcases List.eq_nil_or_concat ts with rfl | ⟨front, last, rfl⟩
  · simp
  · have final : last.listedBefore u := after last (by simp)
    obtain ⟨_, _, before⟩ := List.pairwise_append.mp (List.concat_eq_append ▸ ordered)
    simp only [List.concat_eq_append, List.mem_append, List.mem_singleton]
    rintro t (earlier | rfl)
    · exact (before t earlier last (List.mem_singleton_self _)).trans final
    · exact final

/-- The rest of the rows comes after those in front. -/
theorem drop_after_take {count : Nat} (mem : u ∈ ts.drop count) :
    ∀ t ∈ ts.take count, t.listedBefore u := by
  rw [← List.take_append_drop count ts] at ordered
  exact fun t front => (List.pairwise_append.mp ordered).2.2 t front u mem

end Transfer

/-! ## Listed transfers -/

namespace Store

/-- The waiting transfers that are selected, in listing order. -/
structure Listed (s : Store) (select : Transfer → Prop) (ts : List Transfer) : Prop where
  ordered : ts.Pairwise Transfer.listedBefore
  mem_iff : ∀ t, t ∈ ts ↔ t ∈ s.waiting ∧ select t

namespace Listed

variable {s : Store} {b : Book} {select other : Transfer → Prop} {ts us : List Transfer}

theorem nodup (h : s.Listed select ts) : ts.Nodup :=
  Transfer.nodup_of_ordered h.ordered

theorem kept (h : s.Listed select ts) (keeps : s.Keeps b) : ∀ t ∈ ts, b.transfer t.id = some t :=
  fun t mem => ((mem_waiting keeps).mp ((h.mem_iff t).mp mem).1).1

/-- The selection determines the list. -/
theorem unique (h : s.Listed select ts) (h' : s.Listed select us) : ts = us := by
  have same : ts.Perm us := (List.perm_ext_iff_of_nodup h.nodup h'.nodup).mpr fun t =>
    (h.mem_iff t).trans (h'.mem_iff t).symm
  refine same.eq_of_pairwise ?_ h.ordered h'.ordered
  intro t u _ _ before after
  exact absurd after before.asymm

theorem congr (h : s.Listed select ts) (same : ∀ t ∈ s.waiting, select t ↔ other t) :
    s.Listed other ts :=
  ⟨h.ordered, fun t => (h.mem_iff t).trans (and_congr_right (same t))⟩

theorem filter (h : s.Listed select ts) (keep : Transfer → Prop) [DecidablePred keep] :
    s.Listed (fun t => select t ∧ keep t) (ts.filter keep) where
  ordered := h.ordered.filter _
  mem_iff t := by rw [List.mem_filter, h.mem_iff, decide_eq_true_iff, and_assoc]

/-- What a listing goes on with is listed after the last of what came first. -/
theorem drop (h : s.Listed select ts) (count : Nat) :
    s.Listed (fun t => select t ∧ ∀ last ∈ (ts.take count).getLast?, last.listedBefore t)
      (ts.drop count) where
  ordered := h.ordered.sublist (List.drop_sublist _ _)
  mem_iff t := by
    constructor
    · intro mem
      obtain ⟨waits, selected⟩ := (h.mem_iff t).mp (List.mem_of_mem_drop mem)
      exact ⟨waits, selected, fun last final =>
        Transfer.drop_after_take h.ordered mem last (List.mem_of_getLast? final)⟩
    · rintro ⟨waits, selected, after⟩
      have mem := (h.mem_iff t).mpr ⟨waits, selected⟩
      rw [← List.take_append_drop count ts, List.mem_append] at mem
      refine mem.resolve_left fun early => ?_
      have front := h.ordered.sublist (List.take_sublist count ts)
      exact Transfer.not_listedBefore_self (Transfer.after_of_last front after t early)

/-- As many are listed as are selected. -/
theorem length_eq [DecidablePred select] (h : s.Listed select ts) (legible : s.Legible) :
    ts.length = (s.waiting.filter select).length := by
  have distinct : (s.waiting.filter select).Nodup :=
    (List.Nodup.of_map _ legible.nodup_waiting).filter _
  refine ((List.perm_ext_iff_of_nodup h.nodup distinct).mpr fun t => ?_).length_eq
  rw [h.mem_iff, List.mem_filter, decide_eq_true_iff]

theorem append (h : s.Listed select ts) (h' : s.Listed other us)
    (apart : ∀ t ∈ ts, ∀ u ∈ us, t.listedBefore u) :
    s.Listed (fun t => select t ∨ other t) (ts ++ us) where
  ordered := List.pairwise_append.mpr ⟨h.ordered, h'.ordered, apart⟩
  mem_iff t := by rw [List.mem_append, h.mem_iff, h'.mem_iff, and_or_left]

end Listed

namespace Keeps

variable {s : Store} {b : Book} {cs : List RawAddress}

theorem listed_queue (h : s.Keeps b) (sound : b.Sound) (contract : RawAddress) :
    s.Listed (fun t => t.fee.contract.raw = contract) (s.queue contract) where
  ordered := by
    have ordered := (h.lists_queue sound contract).1
    rw [List.pairwise_map] at ordered
    exact ordered
  mem_iff t := by
    rw [mem_queue]
    refine and_congr_right fun waits => ?_
    rw [sound.spelled ((mem_waiting h).mp waits).1]

/-- The queues of ascending contracts, one after the other. -/
theorem listed_queues (h : s.Keeps b) (sound : b.Sound)
    (ascending : cs.Pairwise fun c d => c.val < d.val) :
    s.Listed (fun t => t.fee.contract.raw ∈ cs) (cs.flatMap s.queue) where
  ordered := by
    refine List.pairwise_flatMap.mpr ⟨fun c _ => (h.listed_queue sound c).ordered, ?_⟩
    refine ascending.imp fun {c d} lower t memT u memU => .inl ?_
    rw [(((h.listed_queue sound c).mem_iff t).mp memT).2,
      (((h.listed_queue sound d).mem_iff u).mp memU).2]
    exact lower
  mem_iff t := by
    simp only [List.mem_flatMap, (h.listed_queue sound _).mem_iff]
    constructor
    · rintro ⟨c, mem, waits, rfl⟩
      exact ⟨waits, mem⟩
    · rintro ⟨waits, mem⟩
      exact ⟨_, mem, waits, rfl⟩

end Keeps

end Store

/-! ## The contracts of a scan -/

namespace Listing

/-- A key that names a contract is below the end of the rows of that contract and of any later. -/
theorem lt_rangeEnd_iff {key : Bytes} {contract other : RawAddress} {id : UInt64}
    (read : Cell.feeKey? key = .ok (contract, id)) :
    key < Bytes.rangeEnd (Cell.feeStart other) ↔ ¬ other.val < contract.val := by
  obtain ⟨amount, rfl⟩ := Cell.exists_of_feeKey? read
  exact Position.key_lt_rangeEnd_iff (p := ⟨contract, amount, id⟩)

/-- Keys in order name contracts in order. -/
theorem contract_lt_of_lt {key key' : Bytes} {contract contract' : RawAddress} {id id' : UInt64}
    (read : Cell.feeKey? key = .ok (contract, id)) (read' : Cell.feeKey? key' = .ok (contract', id'))
    (below : key < key') (different : contract ≠ contract') : contract.val < contract'.val := by
  obtain ⟨amount, rfl⟩ := Cell.exists_of_feeKey? read
  obtain ⟨amount', rfl⟩ := Cell.exists_of_feeKey? read'
  exact Position.contract_lt_of_key_lt (p := ⟨contract, amount, id⟩)
    (q := ⟨contract', amount', id'⟩) below different

/-- What a scan finds from a bound on: contracts in ascending order, and perhaps a key at which it is
refused. The contracts are those of the keys ahead of that one. -/
structure Finds (bound : Bytes) (keys : List Bytes) (cs : List RawAddress)
    (refused : Option (Bytes × StoreFault)) : Prop where
  scan_eq : scan bound keys = cs.map .ok ++ (refused.map fun r => .error r.2).toList
  ascending : cs.Pairwise fun c d => c.val < d.val
  mem_iff : ∀ c, c ∈ cs ↔ ∃ key ∈ keys, ¬ key < bound ∧ (∀ r ∈ refused, key < r.1) ∧
    ∃ id, Cell.feeKey? key = .ok (c, id)
  unread : ∀ r ∈ refused, r.1 ∈ keys ∧ Cell.feeKey? r.1 = .error r.2

namespace Finds

variable {bound key : Bytes} {keys : List Bytes} {cs : List RawAddress} {fault : StoreFault}
  {refused : Option (Bytes × StoreFault)} {contract : RawAddress} {id : UInt64}

/-- A key below the bound is passed over. -/
theorem pass (below : key < bound) (found : Finds bound keys cs refused) :
    Finds bound (key :: keys) cs refused where
  scan_eq := by rw [scan, if_pos below, found.scan_eq]
  ascending := found.ascending
  mem_iff c := by simp [found.mem_iff, below]
  unread r mem := (found.unread r mem).imp_left (List.mem_cons_of_mem _)

/-- A key that cannot be read is the last that is met, and no later key is ahead of it. -/
theorem stop (reached : ¬ key < bound) (first : ∀ other ∈ keys, key < other)
    (unread : Cell.feeKey? key = .error fault) :
    Finds bound (key :: keys) [] (some (key, fault)) where
  scan_eq := by
    rw [scan, if_neg reached, unread]
    rfl
  ascending := .nil
  mem_iff c := by
    simp only [List.not_mem_nil, false_iff]
    rintro ⟨other, mem, _, ahead, _⟩
    have lower : other < key := ahead _ rfl
    rcases List.mem_cons.mp mem with rfl | mem
    · exact List.lt_irrefl _ lower
    · exact List.lt_asymm lower (first other mem)
  unread := by
    rintro _ ⟨⟩
    exact ⟨List.mem_cons_self, unread⟩

/-- A key that names a contract is followed by what is found behind the contract's rows: later
contracts only, and all of them. -/
theorem step (reached : ¬ key < bound) (first : ∀ other ∈ keys, key < other)
    (read : Cell.feeKey? key = .ok (contract, id))
    (found : Finds (Bytes.rangeEnd (Cell.feeStart contract)) keys cs refused) :
    Finds bound (key :: keys) (contract :: cs) refused where
  scan_eq := by
    rw [scan, if_neg reached, read]
    exact congrArg (_ :: ·) found.scan_eq
  ascending := by
    refine List.pairwise_cons.mpr ⟨fun c mem => ?_, found.ascending⟩
    obtain ⟨other, _, behind, _, _, read'⟩ := (found.mem_iff c).mp mem
    rwa [lt_rangeEnd_iff read', not_not] at behind
  mem_iff c := by
    rw [List.mem_cons, found.mem_iff]
    constructor
    · rintro (rfl | ⟨other, mem, _, ahead, named⟩)
      · exact ⟨key, List.mem_cons_self, reached,
          fun r mem => first _ (found.unread r mem).1, id, read⟩
      · exact ⟨other, List.mem_cons_of_mem _ mem,
          fun under => reached (List.lt_trans (first other mem) under), ahead, named⟩
    · rintro ⟨other, mem, _, ahead, id', read'⟩
      rcases List.mem_cons.mp mem with rfl | mem
      · rw [read] at read'
        exact .inl (Prod.mk.inj (Except.ok.inj read')).1.symm
      · by_cases same : c = contract
        · exact .inl same
        · have later := contract_lt_of_lt read read' (first other mem) (Ne.symm same)
          exact .inr ⟨other, mem, by rwa [lt_rangeEnd_iff read', not_not], ahead, id', read'⟩
  unread r mem := (found.unread r mem).imp_left (List.mem_cons_of_mem _)

/-- Nothing is refused where every key can be read. -/
theorem not_refused (found : Finds bound keys cs refused)
    (reads : ∀ key ∈ keys, ∃ named, Cell.feeKey? key = .ok named) : refused = none := by
  refine Option.eq_none_iff_forall_not_mem.mpr fun r mem => ?_
  obtain ⟨inside, unread⟩ := found.unread r mem
  obtain ⟨_, read⟩ := reads r.1 inside
  cases read.symm.trans unread

end Finds

/-- A scan of ascending keys finds something, whatever the keys are. -/
theorem exists_finds (bound : Bytes) {keys : List Bytes} (ascending : keys.Pairwise (· < ·)) :
    ∃ cs refused, Finds bound keys cs refused := by
  induction keys generalizing bound with
  | nil => exact ⟨[], none, rfl, .nil, by simp, nofun⟩
  | cons key rest ih =>
      obtain ⟨first, ascending⟩ := List.pairwise_cons.mp ascending
      by_cases below : key < bound
      · obtain ⟨cs, refused, found⟩ := ih bound ascending
        exact ⟨cs, refused, found.pass below⟩
      cases read : Cell.feeKey? key with
      | error fault => exact ⟨[], some (key, fault), .stop below first read⟩
      | ok named =>
          obtain ⟨cs, refused, found⟩ := ih (Bytes.rangeEnd (Cell.feeStart named.1)) ascending
          exact ⟨named.1 :: cs, refused, found.step below first read⟩

/-- A scan of positions in key order finds each contract that has a key from the bound on, once and
in ascending order. -/
theorem scan_eq (bound : Bytes) {ps : List Position}
    (ascending : ps.Pairwise fun p q => p.cell.key < q.cell.key) :
    ∃ cs : List RawAddress, scan bound (ps.map (·.cell.key)) = cs.map .ok ∧
      cs.Pairwise (fun c d => c.val < d.val) ∧
        ∀ c, c ∈ cs ↔ ∃ p ∈ ps, ¬ p.cell.key < bound ∧ p.contract = c := by
  obtain ⟨cs, refused, found⟩ := exists_finds bound (List.pairwise_map.mpr ascending)
  have reads (p : Position) : Cell.feeKey? p.cell.key = .ok (p.contract, p.id) :=
    Cell.feeKey?_key _ _ _
  obtain rfl := found.not_refused (List.forall_mem_map.mpr fun p _ => ⟨_, reads p⟩)
  refine ⟨cs, found.scan_eq.trans (List.append_nil _), found.ascending, fun c => ?_⟩
  simp [found.mem_iff, reads]

variable {s : Store} {b : Book}

/-- The fee rows are those of the positions that the book lists, in key order. -/
theorem exists_feeRows (h : s.Keeps b) :
    ∃ ps : List Position, (s.range [0x02] [0x03]).map Prod.fst = ps.map (·.cell.key) ∧
      (∀ p, p ∈ ps ↔ p ∈ b.listed) ∧ ps.Pairwise fun p q => p.cell.key < q.cell.key := by
  have mem_rows {key : Bytes} : key ∈ (s.range [0x02] [0x03]).map Prod.fst ↔
      (s.get? key).isSome ∧ key.head? = some 0x02 := by
    simp only [List.mem_map, Store.mem_range, Prod.exists, Option.isSome_iff_exists,
      ← Cell.mem_family_range (b := 0x02) (by decide)]
    constructor
    · rintro ⟨_, row, ⟨found, bounds⟩, rfl⟩
      exact ⟨⟨row, found⟩, bounds⟩
    · rintro ⟨⟨row, found⟩, bounds⟩
      exact ⟨key, row, ⟨found, bounds⟩, rfl⟩
  obtain ⟨ps, keys, named⟩ := Position.exists_of_keys fun key mem => by
    obtain ⟨there, head⟩ := mem_rows.mp mem
    obtain ⟨row, found⟩ := Option.isSome_iff_exists.mp there
    obtain ⟨c, rfl, kind, admits⟩ := h.legible.cell_of_head head found
    cases admits <;> simp [Cell.family] at kind
    case fee contract amount id => exact ⟨⟨contract, amount, id⟩, rfl⟩
  refine ⟨ps, keys, fun p => ?_, ?_⟩
  · rw [← named, mem_rows, h.mem_listed, and_iff_left]
    exact Cell.head?_key _
  · rw [← List.pairwise_map (f := fun p : Position => p.cell.key), ← keys, List.pairwise_map]
    exact Store.sorted_range s _ _

/-- The contracts with listed positions from a bound on. -/
theorem contractsFrom_eq (h : s.Keeps b) (bound : Bytes) :
    ∃ cs : List RawAddress, contractsFrom s bound = cs.map .ok ∧
      cs.Pairwise (fun c d => c.val < d.val) ∧
        ∀ c, c ∈ cs ↔ ∃ p ∈ b.listed, ¬ p.cell.key < bound ∧ p.contract = c := by
  obtain ⟨ps, rows, mem, ascending⟩ := exists_feeRows h
  obtain ⟨cs, scanned, ordered, found⟩ := scan_eq bound ascending
  refine ⟨cs, ?_, ordered, fun c => ?_⟩
  · rw [contractsFrom, rows, scanned]
  · simp only [found, mem]

/-! ## Listings as queues -/

/-- The rows that stand for transfers. -/
def ofTransfers (ts : List Transfer) : Listing :=
  ts.map fun t => .ok t.id

theorem ofContract_eq_queue (h : s.Keeps b) (sound : b.Sound) (contract : RawAddress) :
    ofContract s contract none = ofTransfers (s.queue contract) := by
  rw [ofContract_eq h (h.lists_queue sound contract), List.map_map]
  rfl

theorem ofContracts_eq (h : s.Keeps b) (sound : b.Sound) (cs : List RawAddress) :
    ofContracts s (cs.map .ok) = ofTransfers (cs.flatMap s.queue) := by
  rw [ofContracts, ofTransfers, List.map_flatMap, List.flatMap_map]
  exact List.flatMap_congr fun c _ => ofContract_eq_queue h sound c

/-- A scan that ends at a position's key meets the keys of its contract that lie below. -/
theorem feeKeys_below (s : Store) (p : Position) :
    (s.range (Cell.feeStart p.contract) p.cell.key).reverse.map Prod.fst =
      (s.feeKeys p.contract).filter (· < p.cell.key) := by
  have inside : p.cell.key < Bytes.rangeEnd (Cell.feeStart p.contract) :=
    Position.key_lt_rangeEnd_iff.mpr (List.lt_irrefl _)
  have part : s.range (Cell.feeStart p.contract) p.cell.key =
      (s.range (Cell.feeStart p.contract) (Bytes.rangeEnd (Cell.feeStart p.contract))).filter
        (·.1 < p.cell.key) := by
    rw [Store.range, Store.range, List.filter_filter]
    refine List.filter_congr fun row _ => ?_
    rw [← Bool.decide_and, decide_eq_decide]
    constructor
    · rintro ⟨low, high⟩
      exact ⟨high, low, List.lt_trans high inside⟩
    · rintro ⟨high, low, _⟩
      exact ⟨low, high⟩
  rw [part, Store.feeKeys, List.filter_map, ← List.filter_reverse]
  rfl

/-- Below a position's key stands the rest of its contract's queue. -/
theorem ofContract_below (h : s.Keeps b) (sound : b.Sound) (p : Position) :
    ofContract s p.contract (some p.cell.key) =
      ofTransfers ((s.queue p.contract).filter (p.before ·.position)) := by
  have lists := h.lists_queue sound p.contract
  obtain ⟨ps, lists', keys⟩ := h.feeKeys_eq p.contract
  obtain rfl := lists.unique lists'
  have rows : ofContract s p.contract (some p.cell.key) =
      ((s.feeKeys p.contract).filter (· < p.cell.key)).map
        fun key => (Cell.feeKey? key).map Prod.snd := by
    rw [← feeKeys_below, List.map_map]
    rfl
  have later : ∀ t ∈ s.queue p.contract,
      decide (t.position.cell.key < p.cell.key) = decide (p.before t.position) := by
    intro t mem
    have own := ((lists.2 _).mp (List.mem_map_of_mem mem)).2
    rw [decide_eq_decide, Position.key_lt_iff own.symm]
  rw [rows, keys, List.map_map, List.filter_map, List.map_map, ofTransfers]
  refine (congrArg _ (List.filter_congr later)).trans (List.map_congr_left fun t _ => ?_)
  rw [Function.comp_apply, Function.comp_apply, Position.cell, Cell.feeKey?_key]
  rfl

/-! ## Listings after a cursor -/

/-- The cursor that names a position. -/
def cursorOf (p : Position) : Bytes :=
  p.cell.key.drop 1

theorem cursor_eq (t : Transfer) : cursor t = cursorOf t.position :=
  rfl

/-- A cursor lacks the first byte of the key. -/
theorem cons_cursorOf (p : Position) : 0x02 :: cursorOf p = p.cell.key := by
  rw [cursorOf, Position.cell, Cell.fee_key_eq, List.drop_succ_cons, List.drop_zero]

theorem ofCursor_cursorOf (p : Position) :
    ofCursor (cursorOf p) = .ok (p.contract, p.cell.key) := by
  rw [ofCursor, cons_cursorOf, Position.cell, Cell.feeKey?_key]
  rfl

/-- A cursor that can be read names a position. -/
theorem exists_of_ofCursor {cursor : Bytes} {owner : RawAddress} {key : Bytes}
    (read : ofCursor cursor = .ok (owner, key)) :
    ∃ p : Position, p.contract = owner ∧ cursor = cursorOf p := by
  rw [ofCursor] at read
  cases named : Cell.feeKey? (0x02 :: cursor) with
  | error fault => rw [named] at read; cases read
  | ok parts =>
      obtain ⟨contract, id⟩ := parts
      rw [named] at read
      obtain rfl := (Prod.mk.inj (Except.ok.inj read)).1
      obtain ⟨amount, same⟩ := Cell.exists_of_feeKey? named
      exact ⟨⟨contract, amount, id⟩, rfl, congrArg (List.drop 1) same⟩

/-- Any bytes that are as long as a fee row's key without its first byte name a position. -/
theorem exists_cursorOf_iff {cursor : Bytes} :
    (∃ p, cursor = cursorOf p) ↔ cursor.length = 60 := by
  constructor
  · rintro ⟨p, rfl⟩
    rw [cursorOf, Position.cell, List.length_drop, Cell.length_fee_key]
  · intro length
    have shape : (0x02 :: cursor).length = 61 ∧ (0x02 :: cursor).head? = some 0x02 :=
      ⟨by rw [List.length_cons, length], rfl⟩
    have read : ∃ named, ofCursor cursor = .ok named := by
      rw [ofCursor, Cell.feeKey?, dif_pos shape]
      exact ⟨_, rfl⟩
    obtain ⟨⟨owner, key⟩, read⟩ := read
    obtain ⟨p, _, same⟩ := exists_of_ofCursor read
    exact ⟨p, same⟩

/-- The bytes of a cursor name a position. -/
theorem exists_place {after : Option Bytes} (long : ∀ cursor ∈ after, cursor.length = 60) :
    ∃ place : Option Position, after = place.map cursorOf := by
  cases after with
  | none => exact ⟨none, rfl⟩
  | some cursor =>
      obtain ⟨p, rfl⟩ := exists_cursorOf_iff.mpr (long cursor rfl)
      exact ⟨some p, rfl⟩

/-- A cursor starts with the contract of its position. -/
theorem prefix_cursorOf_iff {contract : RawAddress} {p : Position} :
    contract.val <+: cursorOf p ↔ p.contract = contract := by
  have start : Cell.feeStart contract <+: p.cell.key ↔ contract.val <+: cursorOf p := by
    rw [← cons_cursorOf, Cell.feeStart, List.cons_prefix_cons, and_iff_right rfl]
  rw [← start, Cell.feeStart_prefix_key_iff]
  constructor
  · rintro ⟨amount, id, same⟩
    exact (Cell.fee.inj same).1
  · rintro rfl
    exact ⟨p.fee, p.id, rfl⟩

/-- A cursor names a position of the contract, or is refused whatever the store holds. -/
theorem cursor_cases (contract : Address) (after : Option Bytes) :
    (∃ place : Option Position, (∀ p ∈ place, p.contract = contract.raw) ∧
      after = place.map cursorOf) ∨
    ∃ fault, ∀ s, ofContractAfter s contract after = .error fault := by
  cases after with
  | none => exact .inl ⟨none, nofun, rfl⟩
  | some cursor =>
      cases read : ofCursor cursor with
      | error fault => exact .inr ⟨fault, fun s => by rw [ofContractAfter, read]; rfl⟩
      | ok named =>
          obtain ⟨owner, key⟩ := named
          by_cases own : owner = contract.raw
          · obtain ⟨p, contracts, same⟩ := exists_of_ofCursor read
            refine .inl ⟨some p, ?_, by rw [same, Option.map_some]⟩
            rintro _ ⟨⟩
            rw [contracts, own]
          · refine .inr ⟨.foreignCursor (.ofRaw owner) contract, fun s => ?_⟩
            rw [ofContractAfter, read]
            simp only [bind, Except.bind, if_neg own]

/-- The listing of a contract after a position of it. -/
theorem ofContractAfter_eq (h : s.Keeps b) (sound : b.Sound) (contract : Address)
    (after : Option Position) (own : ∀ p ∈ after, p.contract = contract.raw) :
    ∃ ts, s.Listed
        (fun t => t.fee.contract.raw = contract.raw ∧ ∀ p ∈ after, p.before t.position) ts ∧
      ofContractAfter s contract (after.map cursorOf) = .ok (ofTransfers ts) := by
  cases after with
  | none =>
      refine ⟨_, (h.listed_queue sound contract.raw).congr fun t _ => by simp, ?_⟩
      rw [Option.map_none, ofContractAfter, ofContract_eq_queue h sound]
  | some p =>
      have own := own p rfl
      refine ⟨_, ((h.listed_queue sound contract.raw).filter (p.before ·.position)).congr
        fun t _ => by simp, ?_⟩
      rw [Option.map_some, ofContractAfter, ofCursor_cursorOf]
      simp only [bind, Except.bind, if_pos own, pure, Except.pure]
      rw [← own, ofContract_below h sound]

/-- The listing of the pool after a position: the rest of its contract, then the later ones. -/
theorem poolAfter_eq (h : s.Keeps b) (sound : b.Sound) (after : Option Position) :
    ∃ ts, s.Listed (fun t => ∀ p ∈ after, p.before t.position) ts ∧
      poolAfter s (after.map cursorOf) = .ok (ofTransfers ts) := by
  have listed {t : Transfer} (waits : t ∈ s.waiting) : t.position ∈ b.listed := by
    obtain ⟨kept, unbatched⟩ := (Store.mem_waiting h).mp waits
    exact sound.listed_iff.mpr ⟨t, kept, unbatched, rfl⟩
  cases after with
  | none =>
      obtain ⟨cs, scanned, ascending, mem⟩ := contractsFrom_eq h [0x02]
      refine ⟨_, (h.listed_queues sound ascending).congr fun t waits => ?_, ?_⟩
      · have from_start : ¬ t.position.cell.key < [0x02] :=
          List.not_lt.mpr ((Cell.mem_family_range (b := 0x02) (by decide)).mpr (Cell.head?_key _)).1
        have found : t.fee.contract.raw ∈ cs :=
          (mem _).mpr ⟨t.position, listed waits, from_start, rfl⟩
        simp [found]
      · rw [Option.map_none, poolAfter, pool, contracts, scanned, ofContracts_eq h sound]
  | some p =>
      obtain ⟨cs, scanned, ascending, mem⟩ :=
        contractsFrom_eq h (Bytes.rangeEnd (Cell.feeStart p.contract))
      have later {c : RawAddress} : c ∈ cs ↔
          ∃ q ∈ b.listed, p.contract.val < q.contract.val ∧ q.contract = c := by
        simp only [mem, Position.key_lt_rangeEnd_iff, not_not]
      have first := (h.listed_queue sound p.contract).filter (p.before ·.position)
      have others := h.listed_queues sound ascending
      refine ⟨_, (first.append others fun t memT u memU => ?_).congr fun t waits => ?_, ?_⟩
      · obtain ⟨_, own, _⟩ := (first.mem_iff t).mp memT
        obtain ⟨q, _, lower, same⟩ := later.mp ((others.mem_iff u).mp memU).2
        left
        rw [own, ← same]
        exact lower
      · simp only [Option.mem_def, Option.some.injEq, forall_eq']
        constructor
        · rintro (⟨_, before⟩ | found)
          · exact before
          · obtain ⟨q, _, lower, same⟩ := later.mp found
            rw [same] at lower
            exact .inl lower
        · intro after
          rcases after with lower | ⟨same, below⟩
          · exact .inr (later.mpr ⟨t.position, listed waits, lower, rfl⟩)
          · exact .inl ⟨same.symm, .inr ⟨same, below⟩⟩
      · rw [Option.map_some, poolAfter, ofCursor_cursorOf]
        simp only [bind, Except.bind, pure, Except.pure]
        rw [scanned, ofContracts_eq h sound, ofContract_below h sound]
        simp only [ofTransfers, List.map_append]

end Listing

end BridgePool
