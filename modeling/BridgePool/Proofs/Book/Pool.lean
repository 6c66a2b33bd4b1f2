import BridgePool.Proofs.Book.Sound

/-!
# The pool keeps a book sound

A transfer that is taken in has the next id, which no record and no batch names yet
(`Book.Sound.accept`). A transfer that is paid back waited, so no open batch lists it
(`Book.Sound.refund`).
-/

namespace BridgePool.Book

variable {b : Book} {t : Transfer} {sum : CoinAmount}

/-! ## A new transfer -/

section Accept

variable (h : b.Sound) (own_id : t.id = b.next) (room : t.id.toNat + 1 < UInt64.size)

/-- A record of the new book is the new one or an old one. -/
theorem transfer_accept {id : UInt64} {u : Transfer} :
    (b.accept t sum).transfer id = some u ↔
      id = t.id ∧ u = t ∨ id ≠ t.id ∧ b.transfer id = some u :=
  update_eq_some

theorem locked_accept :
    (b.accept t sum).locked = Function.update b.locked t.token.denom (some sum) := by
  rw [accept]

include h own_id in
theorem Sound.not_kept_new : b.transfer t.id = none := by
  rw [own_id]
  exact h.not_kept_next

include h own_id in
theorem Sound.not_listed_new {n : UInt64} {other : Batch} (recorded : b.batch n = some other) :
    t.id ∉ other.ids := by
  intro listed
  have below := (h.ids_fresh recorded listed).2
  rw [own_id] at below
  exact UInt64.lt_irrefl _ below

include room in
theorem next_accept : (b.accept t sum).next.toNat = t.id.toNat + 1 :=
  toNat_succ room

include own_id room in
/-- Ids that came from the counter still do. -/
theorem below_next_accept {id : UInt64} (below : id < b.next) :
    id < (b.accept t sum).next := by
  rw [UInt64.lt_iff_toNat_lt] at below ⊢
  rw [next_accept room, own_id]
  omega

include h own_id room in
theorem Sound.accept_recorded (spelled : t.fee.contract = t.token.contract)
    (positive : t.token.amount.val ≠ 0) : (b.accept t sum).Recorded := by
  have first : 1 ≤ t.id := own_id ▸ h.first_id
  have after : t.id < (b.accept t sum).next := by
    rw [UInt64.lt_iff_toNat_lt, next_accept room]
    omega
  refine { h.toRecorded with
    transfer_id := ?_, spelled := ?_, positive := ?_, first_id := ?_, fresh := ?_ }
  · intro id u found
    rcases transfer_accept.mp found with ⟨rfl, rfl⟩ | ⟨_, kept⟩
    · rfl
    · exact h.transfer_id kept
  · intro id u found
    rcases transfer_accept.mp found with ⟨_, rfl⟩ | ⟨_, kept⟩
    · exact spelled
    · exact h.spelled kept
  · intro id u found
    rcases transfer_accept.mp found with ⟨_, rfl⟩ | ⟨_, kept⟩
    · exact positive
    · exact h.positive kept
  · exact UInt64.le_of_lt (UInt64.lt_of_le_of_lt first after)
  · intro id u found
    rcases transfer_accept.mp found with ⟨rfl, _⟩ | ⟨_, kept⟩
    · exact ⟨first, after⟩
    · obtain ⟨low, below⟩ := h.fresh kept
      exact ⟨low, below_next_accept own_id room below⟩

include h own_id in
theorem Sound.accept_indexed (waits : t.state = .unbatched) : (b.accept t sum).Indexed := by
  refine { h.toIndexed with listed_iff := ?_ }
  intro p
  have absent := h.not_kept_new own_id
  show p ∈ insert t.position b.listed ↔ _
  simp only [Set.mem_insert_iff, h.listed_iff, transfer_accept]
  constructor
  · rintro (rfl | ⟨u, kept, waitsU, rfl⟩)
    · exact ⟨t, .inl ⟨rfl, rfl⟩, waits, rfl⟩
    · have other : u.position.id ≠ t.id := fun same => by
        rw [same, absent] at kept
        cases kept
      exact ⟨u, .inr ⟨other, kept⟩, waitsU, rfl⟩
  · rintro ⟨u, ⟨_, rfl⟩ | ⟨_, kept⟩, waitsU, rfl⟩
    · exact .inl rfl
    · exact .inr ⟨u, kept, waitsU, rfl⟩

include h own_id room in
theorem Sound.accept_grouped (waits : t.state = .unbatched) : (b.accept t sum).Grouped := by
  -- batches name ids that were given out, and the new id was not
  have apart {n other id} (recorded : b.batch n = some other) (listed : id ∈ other.ids) :
      id ≠ t.id := by
    rintro rfl
    exact h.not_listed_new own_id recorded listed
  refine { h.toGrouped with
    carried_iff := ?_, ids_fresh := ?_, open_kept := ?_, open_ordered := ?_
    executed_gone := ?_ }
  · intro id u n found
    rcases transfer_accept.mp found with ⟨rfl, rfl⟩ | ⟨_, kept⟩
    · rw [waits]
      constructor
      · intro carried
        cases carried
      · rintro ⟨other, recorded, _, listed⟩
        exact absurd rfl (apart recorded listed)
    · exact h.carried_iff kept
  · intro n other id recorded listed
    obtain ⟨low, below⟩ := h.ids_fresh recorded listed
    exact ⟨low, below_next_accept own_id room below⟩
  · intro n other id recorded opened listed
    obtain ⟨u, kept, same⟩ := h.open_kept recorded opened listed
    exact ⟨u, transfer_accept.mpr (.inr ⟨apart recorded listed, kept⟩), same⟩
  · intro n other recorded opened
    apply (h.open_ordered recorded opened).congr
    intro id listed u found
    rcases transfer_accept.mp found with ⟨same, _⟩ | ⟨_, kept⟩
    · exact absurd same (apart recorded listed)
    · exact ⟨u, kept, rfl⟩
  · intro n other id recorded executed listed
    rw [Option.eq_none_iff_forall_ne_some]
    intro u found
    rcases transfer_accept.mp found with ⟨same, _⟩ | ⟨_, kept⟩
    · exact apart recorded listed same
    · rw [h.executed_gone recorded executed listed] at kept
      cases kept

include h own_id in
theorem Sound.accept_balanced (positive : t.token.amount.val ≠ 0)
    (credited : sum.val = b.locked.held t.token.denom + t.worth) :
    (b.accept t sum).Balanced := by
  constructor
  · intro denom
    have change := worthOf_update b.transfer t.id (some t) denom
    have before := h.held_eq denom
    rw [h.not_kept_new own_id, shareOf_none, shareOf_some, Transfer.share] at change
    rw [worth] at before
    rw [worth, locked_accept, Holdings.held_update]
    show _ = worthOf (Function.update b.transfer t.id (some t)) denom
    by_cases same : denom = t.token.denom
    · rw [if_pos same.symm] at change
      rw [if_pos same, Option.getD_some, credited, ← same]
      omega
    · rw [if_neg (Ne.symm same)] at change
      rw [if_neg same]
      omega
  · intro denom amount row
    rw [locked_accept, Function.update_apply] at row
    split at row
    · obtain rfl := Option.some.inj row
      rw [credited, Transfer.worth]
      omega
    · exact h.no_empty_row denom amount row

include h own_id room in
theorem Sound.accept (waits : t.state = .unbatched)
    (spelled : t.fee.contract = t.token.contract) (positive : t.token.amount.val ≠ 0)
    (credited : sum.val = b.locked.held t.token.denom + t.worth) : (b.accept t sum).Sound where
  toRecorded := h.accept_recorded own_id room spelled positive
  toIndexed := h.accept_indexed own_id waits
  toGrouped := h.accept_grouped own_id room waits
  toBalanced := h.accept_balanced own_id positive credited
  toConfigured := ⟨h.config_bounds, h.height_some⟩

end Accept

/-! ## A waiting transfer is paid back -/

section Refund

variable (h : b.Sound) (kept : b.transfer t.id = some t) (waits : t.state = .unbatched)

/-- A record of the new book is an old one with another id. -/
theorem transfer_refund {id : UInt64} {u : Transfer} :
    (b.refund t).transfer id = some u ↔ id ≠ t.id ∧ b.transfer id = some u :=
  update_none_eq_some

theorem locked_refund : (b.refund t).locked = b.locked.spend t.token.denom t.worth := by
  rw [refund]

theorem refund_transfer_self (b : Book) (t : Transfer) : (b.refund t).transfer t.id = none :=
  Function.update_self _ _ _

include h kept waits in
theorem Sound.not_listed_waiting {n : UInt64} {other : Batch} (recorded : b.batch n = some other)
    (opened : other.state = .open) : t.id ∉ other.ids := by
  intro listed
  have carried := h.not_waiting recorded opened listed kept
  rw [waits] at carried
  cases carried

include h in
theorem Sound.refund_recorded : (b.refund t).Recorded :=
  { h.toRecorded with
    transfer_id := fun found => h.transfer_id (transfer_refund.mp found).2
    spelled := fun found => h.spelled (transfer_refund.mp found).2
    positive := fun found => h.positive (transfer_refund.mp found).2
    fresh := fun found => h.fresh (transfer_refund.mp found).2 }

include h kept in
theorem Sound.refund_indexed : (b.refund t).Indexed := by
  refine { h.toIndexed with listed_iff := ?_ }
  intro p
  show p ∈ b.listed \ {t.position} ↔ _
  simp only [Set.mem_sdiff, Set.mem_singleton_iff, h.listed_iff, transfer_refund]
  constructor
  · rintro ⟨⟨u, found, waitsU, rfl⟩, other⟩
    refine ⟨u, ⟨fun same => other ?_, found⟩, waitsU, rfl⟩
    rw [same, kept, Option.some.injEq] at found
    rw [found]
  · rintro ⟨u, ⟨other, found⟩, waitsU, rfl⟩
    exact ⟨⟨u, found, waitsU, rfl⟩, fun same => other (congrArg Position.id same)⟩

include h kept waits in
theorem Sound.refund_grouped : (b.refund t).Grouped := by
  refine { h.toGrouped with
    carried_iff := fun found => h.carried_iff (transfer_refund.mp found).2
    open_kept := ?_, open_ordered := ?_, executed_gone := ?_ }
  · intro n other id recorded opened listed
    obtain ⟨u, found, same⟩ := h.open_kept recorded opened listed
    -- only open batches need their transfers, and none of those lists a waiting one
    have apart : id ≠ t.id := by
      rintro rfl
      exact h.not_listed_waiting kept waits recorded opened listed
    exact ⟨u, transfer_refund.mpr ⟨apart, found⟩, same⟩
  · intro n other recorded opened
    exact (h.open_ordered recorded opened).congr fun id _ u found =>
      ⟨u, (transfer_refund.mp found).2, rfl⟩
  · intro n other id recorded executed listed
    rw [Option.eq_none_iff_forall_ne_some]
    intro u found
    have gone := h.executed_gone recorded executed listed
    rw [(transfer_refund.mp found).2] at gone
    cases gone

include h kept in
theorem Sound.refund_balanced : (b.refund t).Balanced := by
  constructor
  · intro denom
    have change := worthOf_update b.transfer t.id none denom
    have before := h.held_eq denom
    rw [kept, shareOf_none, shareOf_some, Transfer.share] at change
    rw [worth] at before
    rw [worth, locked_refund, Holdings.held_spend]
    show _ = worthOf (Function.update b.transfer t.id none) denom
    by_cases same : denom = t.token.denom
    · rw [if_pos same.symm] at change
      rw [if_pos same, ← same]
      omega
    · rw [if_neg (Ne.symm same)] at change
      rw [if_neg same]
      omega
  · rw [locked_refund]
    exact h.no_empty_row.spend _ _

include h kept waits in
theorem Sound.refund : (b.refund t).Sound where
  toRecorded := h.refund_recorded
  toIndexed := h.refund_indexed kept
  toGrouped := h.refund_grouped kept waits
  toBalanced := h.refund_balanced kept
  toConfigured := ⟨h.config_bounds, h.height_some⟩

end Refund

end BridgePool.Book
