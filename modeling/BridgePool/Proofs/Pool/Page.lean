import BridgePool.Bridge.Answer
import BridgePool.Proofs.Pool.Scan

/-!
# Pages of a listing

A query for a page is answered with the front of the listing after the cursor, and with the cursor
of its last row when the listing goes on (`Scope.answer_eq`). This holds for the whole pool and for
one token alike, so a `Scope` stands for either.
-/

namespace BridgePool

/-- What is paged through. -/
inductive Scope where
  /-- The whole pool. -/
  | pool
  /-- The transfers of one token. -/
  | token (contract : Address)

namespace Scope

/-- The transfers that belong to the scope. -/
def Covers : Scope → Transfer → Prop
  | .pool, _ => True
  | .token contract, t => t.token.contract.raw = contract.raw

instance (scope : Scope) : DecidablePred scope.Covers := fun t =>
  match scope with
  | .pool => inferInstanceAs (Decidable True)
  | .token contract => inferInstanceAs (Decidable (t.token.contract.raw = contract.raw))

/-- The query for the page after a cursor. -/
def query (scope : Scope) (after : Option Bytes) (limit : Option UInt32) : Query :=
  match scope with
  | .pool => .waiting after limit
  | .token contract => .waitingOf contract.spelling after limit

/-- The positions that belong to the scope. -/
def Spans : Scope → Position → Prop
  | .pool, _ => True
  | .token contract, p => p.contract = contract.raw

end Scope

/-- The first page of listed transfers. -/
def Listing.Page.front (ts : List Transfer) (limit : Nat) : Page where
  transfers := ts.take limit
  next := if limit < ts.length then (ts.take limit).getLast?.map cursor else none

variable {s : Store} {b : Book} {ts : List Transfer}

namespace Listing

namespace Page

variable {limit : Nat}

/-- The cursor that comes with a page is that of the last row so far. -/
theorem next_front (rows : List Transfer) (more : (front ts limit).next ≠ none) :
    (front ts limit).next = (rows ++ (front ts limit).transfers).getLast?.map cursor := by
  have next : (front ts limit).next = (front ts limit).transfers.getLast?.map cursor := by
    rw [front] at more ⊢
    split at more
    next longer => exact if_pos longer
    next => exact absurd rfl more
  obtain ⟨last, final⟩ : ∃ last, (front ts limit).transfers.getLast? = some last := by
    refine Option.ne_none_iff_exists'.mp fun none => more ?_
    rw [next, none, Option.map_none]
  rw [next, List.getLast?_append, final, Option.some_or]

/-- A page that has room comes without a cursor exactly when it takes everything. -/
theorem next_front_eq_none (room : 0 < limit) :
    (front ts limit).next = none ↔ ts.length ≤ limit := by
  rw [front, ite_eq_right_iff, Option.map_eq_none_iff, List.getLast?_eq_none_iff,
    List.take_eq_nil_iff, ← Nat.not_lt]
  refine imp_congr_right fun longer => iff_of_false ?_ id
  rintro (none | rfl)
  · omega
  · exact absurd longer (Nat.not_lt_zero _)

/-- A page shows every row exactly when it takes everything. -/
theorem forall_mem_front_iff (nodup : ts.Nodup) :
    (∀ t ∈ ts, t ∈ (front ts limit).transfers) ↔ ts.length ≤ limit := by
  constructor
  · intro shown
    have shorter : ts.length ≤ (ts.take limit).length := (nodup.subperm shown).length_le
    rw [List.length_take] at shorter
    omega
  · intro fits t mem
    rwa [front, List.take_of_length_le fits]

/-- A cursor that comes with a page is that of its last row, and some row is left out. -/
theorem exists_of_next_front {next : Bytes} (more : (front ts limit).next = some next) :
    ∃ last first rest, (ts.take limit).getLast? = some last ∧ cursor last = next ∧
      ts.drop limit = first :: rest := by
  rw [front] at more
  split at more
  next longer =>
    obtain ⟨last, final, same⟩ := Option.map_eq_some_iff.mp more
    exact ⟨last, _, _, final, same, List.drop_eq_getElem_cons longer⟩
  next => cases more

/-- A page shows a row, or comes with a cursor and the row is ahead of all that it shows. -/
theorem mem_front_or (room : 0 < limit) (ordered : ts.Pairwise Transfer.listedBefore)
    {t : Transfer} (mem : t ∈ ts) : t ∈ (front ts limit).transfers ∨
      (front ts limit).next ≠ none ∧ ∀ row ∈ (front ts limit).transfers, row.listedBefore t := by
  rw [← List.take_append_drop limit ts, List.mem_append] at mem
  rcases mem with shown | later
  · exact .inl shown
  · refine .inr ⟨fun whole => ?_, Transfer.drop_after_take ordered later⟩
    rw [List.drop_of_length_le ((next_front_eq_none room).mp whole)] at later
    cases later

end Page

/-- A listing of transfers that are kept yields them. -/
theorem all_ofTransfers (h : s.Keeps b) (kept : ∀ t ∈ ts, b.transfer t.id = some t) :
    all s (ofTransfers ts) = .ok ts := by
  rw [all, ofTransfers, mapM_eq_ok, List.forall₂_map_left_iff, List.forall₂_same]
  exact fun t mem => (fetch_eq_ok h).mpr (kept t mem)

theorem first_ofTransfers (h : s.Keeps b) (kept : ∀ t ∈ ts, b.transfer t.id = some t)
    (count : Nat) : first s (ofTransfers ts) count = .ok (ts.take count) := by
  rw [first, ofTransfers, ← List.map_take]
  exact all_ofTransfers h fun t mem => kept t (List.mem_of_mem_take mem)

theorem page_ofTransfers (h : s.Keeps b) (kept : ∀ t ∈ ts, b.transfer t.id = some t)
    (limit : Nat) : page s (ofTransfers ts) limit = .ok (.front ts limit) := by
  rw [page, first_ofTransfers h kept]
  simp only [bind, Except.bind, List.length_take, Page.front]
  by_cases more : limit < ts.length
  · have shown : limit < min (limit + 1) ts.length := by omega
    rw [if_pos shown, if_pos more, List.take_take, Nat.min_eq_left (Nat.le_succ limit)]
    rfl
  · have whole : ¬ limit < min (limit + 1) ts.length := by omega
    rw [if_neg whole, if_neg more, List.take_of_length_le (by omega),
      List.take_of_length_le (by omega)]
    rfl

end Listing

/-- A page has room unless none was asked for. -/
theorem Bridge.pageSize_pos {limit : Option UInt32} (positive : limit ≠ some 0) :
    0 < pageSize 100 1000 limit := by
  cases limit with
  | none => decide
  | some n =>
      have nonzero : n.toNat ≠ 0 := fun zero => positive (congrArg some (UInt32.toNat_inj.mp zero))
      rw [pageSize, Option.map_some, Option.getD_some]
      omega

/-- A page is the front of what the scope lists after a position. -/
theorem Scope.answer_eq (h : s.Keeps b) (sound : b.Sound) (scope : Scope)
    (after : Option Position) (own : ∀ p ∈ after, scope.Spans p) :
    ∃ ts, s.Listed (fun t => scope.Covers t ∧ ∀ p ∈ after, p.before t.position) ts ∧
      ∀ limit, Bridge.answer s (scope.query (after.map Listing.cursorOf) limit) =
        .ok (.transfers (.front ts (Bridge.pageSize 100 1000 limit))) := by
  cases scope with
  | pool =>
      obtain ⟨ts, listed, listing⟩ := Listing.poolAfter_eq h sound after
      refine ⟨ts, listed.congr fun t _ => (and_iff_right trivial).symm, fun limit => ?_⟩
      simp only [query, Bridge.answer, listing, Listing.page_ofTransfers h (listed.kept h), bind,
        Except.bind, pure, Except.pure, Except.mapError]
  | token contract =>
      obtain ⟨ts, listed, listing⟩ := Listing.ofContractAfter_eq h sound contract after own
      have covers : ∀ t ∈ s.waiting, t.fee.contract.raw = contract.raw ↔
          Covers (.token contract) t := by
        intro t waits
        rw [sound.spelled ((Store.mem_waiting h).mp waits).1, Covers]
      refine ⟨ts, listed.congr fun t waits => and_congr_left fun _ => covers t waits,
        fun limit => ?_⟩
      simp only [query, Bridge.answer, Bridge.askedAddress, Address.parse_spelling, listing,
        Listing.page_ofTransfers h (listed.kept h), bind, Except.bind, pure, Except.pure,
        Except.mapError]

end BridgePool
