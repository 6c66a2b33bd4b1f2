import BridgePool.Proofs.Book.Sound

/-!
# Batches keep a book sound

The transfers that a new batch takes waited, and its nonce is the next one (`Book.Sound.gather`).
A batch that ends was the only open one to list its transfers: they go back to the pool
(`Book.Sound.disband`) or are dropped for good (`Book.Sound.settle`).
-/

namespace BridgePool.Book

variable {b : Book} {batch : Batch} {state : BatchState} {contract : RawAddress} {count : Nat}
  {ids : List UInt64} {waits : TransferState} {id : UInt64} {u : Transfer}

/-! ## Records that move -/

theorem moved_eq_some :
    b.moved ids waits id = some u ↔
      ∃ t, b.transfer id = some t ∧ u = if id ∈ ids then { t with state := waits } else t := by
  rw [moved]
  split <;> simp [eq_comm]

/-- A record keeps everything but its state. -/
theorem of_moved (found : b.moved ids waits id = some u) :
    ∃ t, b.transfer id = some t ∧ u.id = t.id ∧ u.token = t.token ∧ u.fee = t.fee := by
  obtain ⟨t, kept, rfl⟩ := moved_eq_some.mp found
  refine ⟨t, kept, ?_⟩
  split <;> exact ⟨rfl, rfl, rfl⟩

theorem of_moved_of_mem (found : b.moved ids waits id = some u) (mem : id ∈ ids) :
    ∃ t, b.transfer id = some t ∧ u = { t with state := waits } := by
  obtain ⟨t, kept, same⟩ := moved_eq_some.mp found
  rw [if_pos mem] at same
  exact ⟨t, kept, same⟩

theorem moved_of_not_mem (absent : id ∉ ids) : b.moved ids waits id = b.transfer id := by
  rw [moved, if_neg absent]

/-- Records that move to a state in two steps have moved there. -/
theorem moved_append {b₁ : Book} {ids₁ : List UInt64} (records : b₁.transfer = b.moved ids waits) :
    b₁.moved ids₁ waits = b.moved (ids ++ ids₁) waits := by
  funext id
  rw [moved, moved, records, moved]
  by_cases early : id ∈ ids <;> by_cases late : id ∈ ids₁ <;>
    simp [early, late, Function.comp_def]

theorem moved_perm {ids₁ : List UInt64} (same : ids.Perm ids₁) :
    b.moved ids waits = b.moved ids₁ waits := by
  funext id
  simp only [moved, same.mem_iff]

/-- Records that move are still there. -/
theorem moved_of_kept {t : Transfer} (kept : b.transfer id = some t) :
    ∃ u, b.moved ids waits id = some u ∧ u.token = t.token := by
  refine ⟨if id ∈ ids then { t with state := waits } else t, moved_eq_some.mpr ⟨t, kept, rfl⟩, ?_⟩
  split <;> rfl

theorem moved_eq_none (gone : b.transfer id = none) : b.moved ids waits id = none := by
  rw [moved, gone]
  split <;> rfl

section Moved

variable {b' : Book} (records : b'.transfer = b.moved ids waits)

include records in
theorem Recorded.moved (h : b.Recorded) (counter : b'.nextId = b.nextId)
    (batch_nonce : ∀ {n other}, b'.batch n = some other → other.nonce = n)
    (numbered : ∀ {n}, (b'.batch n).isSome ↔ 1 ≤ n ∧ n ≤ b'.last) : b'.Recorded := by
  have same_next : b'.next = b.next := by rw [next, next, counter]
  constructor
  case transfer_id =>
    intro id u found
    obtain ⟨t, kept, own_id, _⟩ := of_moved (records ▸ found)
    rw [own_id]
    exact h.transfer_id kept
  case spelled =>
    intro id u found
    obtain ⟨t, kept, _, token, fee⟩ := of_moved (records ▸ found)
    rw [token, fee]
    exact h.spelled kept
  case positive =>
    intro id u found
    obtain ⟨t, kept, _, token, _⟩ := of_moved (records ▸ found)
    rw [token]
    exact h.positive kept
  case first_id => exact same_next ▸ h.first_id
  case fresh =>
    intro id u found
    obtain ⟨t, kept, _⟩ := of_moved (records ▸ found)
    exact same_next ▸ h.fresh kept
  case batch_nonce => exact batch_nonce
  case numbered => exact numbered

include records in
theorem InOrder.moved {others : List UInt64} (h : b.InOrder others) : b'.InOrder others := by
  apply h.congr
  intro id _ u found
  obtain ⟨t, kept, own_id, _, fee⟩ := of_moved (records ▸ found)
  exact ⟨t, kept, by rw [Transfer.position, Transfer.position, own_id, fee]⟩

include records in
/-- Records that move stay at their positions. -/
theorem places_of_moved {others : List UInt64} : b'.places others = b.places others := by
  ext p
  refine and_congr_right fun _ => ?_
  constructor
  · intro ⟨u, found, place⟩
    obtain ⟨t, kept, own_id, _, fee⟩ := of_moved (records ▸ found)
    exact ⟨t, kept, by rw [← place, Transfer.position, Transfer.position, own_id, fee]⟩
  · intro ⟨t, kept, place⟩
    refine ⟨_, records ▸ moved_eq_some.mpr ⟨t, kept, rfl⟩, ?_⟩
    rw [← place]
    split <;> rfl

end Moved

/-! ## A new batch -/

/-- The nonces that are in use grow by the one after the last. -/
theorem Recorded.numbered_next (h : b.Recorded) {nonce n : UInt64} (own : nonce = b.last + 1)
    (room : b.last.toNat + 1 < UInt64.size) :
    (Function.update b.batch nonce (some batch) n).isSome ↔ 1 ≤ n ∧ n ≤ nonce := by
  have after : nonce.toNat = b.last.toNat + 1 := by rw [own, toNat_succ room]
  have old := h.numbered (n := n)
  rw [UInt64.le_iff_toNat_le, UInt64.le_iff_toNat_le, UInt64.toNat_one] at old ⊢
  rw [Function.update_apply]
  split
  next same =>
    rw [same]
    simp only [Option.isSome_some, true_iff]
    omega
  next other =>
    have apart : n.toNat ≠ nonce.toNat := fun same => other (UInt64.toNat_inj.mp same)
    rw [old]
    omega

section Gather

variable (h : b.Filed) (g : b.Gathers contract count batch)

include h g in
/-- The transfers that a batch takes waited, and are of its contract. -/
theorem Gathers.waiting (listed : id ∈ batch.ids) :
    ∃ t, b.transfer id = some t ∧ t.state = .unbatched ∧ t.token.contract.raw = contract := by
  obtain ⟨all, ⟨_, lists⟩, front⟩ := g.ids
  rw [front] at listed
  obtain ⟨p, mem, rfl⟩ := List.mem_map.mp listed
  obtain ⟨inPool, own⟩ := (lists p).mp (List.mem_of_mem_take mem)
  obtain ⟨t, kept, waits, rfl⟩ := h.listed_iff.mp inPool
  refine ⟨t, kept, waits, ?_⟩
  rw [← h.spelled kept]
  exact own

include h g in
theorem Gathers.inOrder : b.InOrder batch.ids := by
  obtain ⟨all, ⟨ordered, lists⟩, front⟩ := g.ids
  -- the record of a listed position is at that position
  have place {p : Position} (mem : p ∈ all.take count) {t} (kept : b.transfer p.id = some t) :
      t.position = p := by
    obtain ⟨inPool, _⟩ := (lists p).mp (List.mem_of_mem_take mem)
    obtain ⟨u, found, _, same⟩ := h.listed_iff.mp inPool
    rw [kept, Option.some.injEq] at found
    exact found ▸ same
  rw [front, InOrder, List.pairwise_map]
  refine List.Pairwise.imp_of_mem ?_ (ordered.sublist (List.take_sublist count all))
  intro p q memP memQ before t u keptT keptU
  rw [place memP keptT, place memQ keptU]
  exact before

include h g in
theorem Gathers.nodup : batch.ids.Nodup := by
  refine List.Pairwise.imp_of_mem ?_ (g.inOrder h)
  rintro i j memI _ before rfl
  obtain ⟨t, kept, _⟩ := g.waiting h memI
  exact Position.before.irrefl (before t t kept kept)

include g in
theorem Gathers.length_pos : 1 ≤ batch.ids.length := by
  obtain ⟨lead, found, _⟩ := g.spelled
  cases ids : batch.ids with
  | nil => simp [ids] at found
  | cons id rest => simp

include g in
theorem Gathers.length_le : batch.ids.length ≤ count := by
  obtain ⟨all, _, front⟩ := g.ids
  rw [front, List.length_map, List.length_take]
  exact Nat.min_le_left _ _

include h g in
theorem Gathers.own_contract : batch.contract.raw = contract := by
  obtain ⟨lead, found, spelled⟩ := g.spelled
  obtain ⟨id, first, kept⟩ := Option.bind_eq_some_iff.mp found
  obtain ⟨t, keptT, _, own⟩ := g.waiting h (List.mem_of_mem_head? first)
  rw [kept, Option.some.injEq] at keptT
  rw [spelled, keptT, own]

include h g in
theorem Gathers.new_batch : b.batch batch.nonce = none :=
  h.not_kept_batch g.own_nonce g.room

include h g in
theorem Gathers.old_nonce {n : UInt64} {other : Batch} (recorded : b.batch n = some other) :
    n ≠ batch.nonce := by
  rintro rfl
  rw [g.new_batch h] at recorded
  cases recorded

include h g in
theorem Filed.gather_recorded : (b.gather batch).Recorded := by
  refine h.toRecorded.moved rfl rfl ?_ (h.numbered_next g.own_nonce g.room)
  intro n other found
  rcases update_eq_some.mp found with ⟨rfl, rfl⟩ | ⟨_, recorded⟩
  · rfl
  · exact h.batch_nonce recorded

include h g in
theorem Filed.gather_indexed : (b.gather batch).Indexed := by
  -- listed positions lose the places of the batch, and those records wait no longer
  constructor
  · intro p
    show p ∈ b.listed \ b.places batch.ids ↔
      ∃ u, b.moved batch.ids (.inBatch batch.nonce) p.id = some u ∧ _
    rw [Set.mem_sdiff, h.listed_iff]
    constructor
    · rintro ⟨⟨t, kept, waits, rfl⟩, other⟩
      have absent : t.position.id ∉ batch.ids := fun mem => other ⟨mem, t, kept, rfl⟩
      exact ⟨t, by rwa [moved_of_not_mem absent], waits, rfl⟩
    · rintro ⟨u, found, waits, rfl⟩
      have absent : u.position.id ∉ batch.ids := fun mem => by
        obtain ⟨t, _, rfl⟩ := of_moved_of_mem found mem
        cases waits
      rw [moved_of_not_mem absent] at found
      exact ⟨⟨u, found, waits, rfl⟩, fun taken => absent taken.1⟩
  · intro other n
    show Function.update b.openNonce batch.contract.raw (some batch.nonce) other = some n ↔
      ∃ c, Function.update b.batch batch.nonce (some batch) n = some c ∧ _
    simp only [update_eq_some]
    constructor
    · rintro (⟨rfl, rfl⟩ | ⟨_, recorded⟩)
      · exact ⟨batch, .inl ⟨rfl, rfl⟩, g.opened, rfl⟩
      · obtain ⟨c, kept, opened, own⟩ := h.open_iff.mp recorded
        exact ⟨c, .inr ⟨g.old_nonce h kept, kept⟩, opened, own⟩
    · rintro ⟨c, ⟨rfl, rfl⟩ | ⟨_, kept⟩, opened, rfl⟩
      · exact .inl ⟨rfl, rfl⟩
      -- an older open batch of the contract would have kept this one from being built
      · have recorded := h.open_iff.mpr ⟨c, kept, opened, rfl⟩
        refine .inr ⟨fun same => ?_, recorded⟩
        rw [same, g.own_contract h, g.free] at recorded
        cases recorded

include h g in
theorem Filed.gather : (b.gather batch).Filed :=
  ⟨h.gather_recorded g, h.gather_indexed g⟩

end Gather

section Group

variable (h : b.Sound) (g : b.Gathers contract count batch)

include h g in
/-- An open batch carries what it lists, and what the new batch takes was not carried. -/
theorem Gathers.not_listed {n : UInt64} {other : Batch} (recorded : b.batch n = some other)
    (opened : other.state = .open) (listed : id ∈ other.ids) : id ∉ batch.ids := by
  intro mem
  obtain ⟨t, kept, waits, _⟩ := g.waiting h.filed mem
  have carried := h.not_waiting recorded opened listed kept
  rw [waits] at carried
  cases carried

include g in
/-- The new batch is not executed, so the executed batches are old ones. -/
theorem Gathers.executed_old {n : UInt64} {other : Batch}
    (found : (b.gather batch).batch n = some other) (executed : other.state = .executed) :
    b.batch n = some other := by
  rcases update_eq_some.mp found with ⟨rfl, rfl⟩ | ⟨_, recorded⟩
  · rw [g.opened] at executed
    cases executed
  · exact recorded

include h g in
/-- The new batch carries what it takes, and the others what they carried. -/
theorem Sound.gather_carried_iff {n : UInt64} (found : (b.gather batch).transfer id = some u) :
    u.state = .inBatch n ↔
      ∃ c, (b.gather batch).batch n = some c ∧ c.state = .open ∧ id ∈ c.ids := by
  show _ ↔ ∃ c, Function.update b.batch batch.nonce (some batch) n = some c ∧ _
  simp only [update_eq_some]
  by_cases mem : id ∈ batch.ids
  · obtain ⟨t, kept, rfl⟩ := of_moved_of_mem found mem
    constructor
    · intro carried
      obtain rfl := TransferState.inBatch.inj carried
      exact ⟨batch, .inl ⟨rfl, rfl⟩, g.opened, mem⟩
    · rintro ⟨c, ⟨rfl, rfl⟩ | ⟨_, recorded⟩, opened, listed⟩
      · rfl
      · exact absurd mem (g.not_listed h recorded opened listed)
  · have kept := (moved_of_not_mem mem).symm.trans found
    rw [h.carried_iff kept]
    constructor
    · rintro ⟨c, recorded, opened, listed⟩
      exact ⟨c, .inr ⟨g.old_nonce h.filed recorded, recorded⟩, opened, listed⟩
    · rintro ⟨c, ⟨rfl, rfl⟩ | ⟨_, recorded⟩, opened, listed⟩
      · exact absurd listed mem
      · exact ⟨c, recorded, opened, listed⟩

include h g in
theorem Sound.gather_grouped (bound : count ≤ 1000) : (b.gather batch).Grouped := by
  constructor
  case carried_iff =>
    intro id u n found
    exact h.gather_carried_iff g found
  case sized =>
    intro n c found
    rcases update_eq_some.mp found with ⟨rfl, rfl⟩ | ⟨_, recorded⟩
    · exact ⟨g.length_pos, Nat.le_trans g.length_le bound, g.nodup h.filed⟩
    · exact h.sized recorded
  case ids_fresh =>
    intro n c id found listed
    rcases update_eq_some.mp found with ⟨rfl, rfl⟩ | ⟨_, recorded⟩
    · obtain ⟨t, kept, _⟩ := g.waiting h.filed listed
      exact h.fresh kept
    · exact h.ids_fresh recorded listed
  case open_kept =>
    intro n c id found opened listed
    have kept : ∃ t, b.transfer id = some t ∧ t.token.contract.raw = c.contract.raw := by
      rcases update_eq_some.mp found with ⟨rfl, rfl⟩ | ⟨_, recorded⟩
      · obtain ⟨t, kept, _, own⟩ := g.waiting h.filed listed
        exact ⟨t, kept, by rw [own, g.own_contract h.filed]⟩
      · exact h.open_kept recorded opened listed
    obtain ⟨t, kept, own⟩ := kept
    obtain ⟨u, found, token⟩ := moved_of_kept kept
    exact ⟨u, found, token ▸ own⟩
  case open_ordered =>
    intro n c found opened
    rcases update_eq_some.mp found with ⟨rfl, rfl⟩ | ⟨_, recorded⟩
    · exact (g.inOrder h.filed).moved rfl
    · exact (h.open_ordered recorded opened).moved rfl
  case executed_gone =>
    intro n c id found executed listed
    exact moved_eq_none (h.executed_gone (g.executed_old found executed) executed listed)
  case executed_once =>
    intro m n first second id foundM executedM foundN executedN listedM listedN
    exact h.executed_once (g.executed_old foundM executedM) executedM
      (g.executed_old foundN executedN) executedN listedM listedN

include h g in
theorem Sound.gather (bound : count ≤ 1000) : (b.gather batch).Sound where
  toRecorded := h.filed.gather_recorded g
  toIndexed := h.filed.gather_indexed g
  toGrouped := h.gather_grouped g bound
  held_eq denom := by
    rw [worth]
    exact (h.held_eq denom).trans (worthOf_moved b _ _ denom).symm
  no_empty_row := h.no_empty_row
  toConfigured := ⟨h.config_bounds, h.height_some⟩

end Group

/-! ## A batch ends -/

section Close

variable {n : UInt64} {c : Batch}

/-- The batches with one of them in another state. -/
def closing (b : Book) (batch : Batch) (state : BatchState) : UInt64 → Option Batch :=
  Function.update b.batch batch.nonce (some { batch with state })

theorem open_of_closing (ends : state ≠ .open) (found : b.closing batch state n = some c)
    (opened : c.state = .open) : n ≠ batch.nonce ∧ b.batch n = some c := by
  rcases update_eq_some.mp found with ⟨_, rfl⟩ | old
  · exact absurd opened ends
  · exact old

variable (h : b.Sound) (recorded : b.batch batch.nonce = some batch)
  (opened : batch.state = .open)

include recorded in
/-- A batch keeps everything but its state. -/
theorem of_closing (found : b.closing batch state n = some c) :
    ∃ old, b.batch n = some old ∧ c.nonce = old.nonce ∧ c.ids = old.ids := by
  rcases update_eq_some.mp found with ⟨rfl, rfl⟩ | ⟨_, kept⟩
  · exact ⟨batch, recorded, rfl, rfl⟩
  · exact ⟨c, kept, rfl, rfl⟩

include recorded in
theorem closing_isSome : (b.closing batch state n).isSome ↔ (b.batch n).isSome := by
  rw [closing, Function.update_apply]
  split
  next same => simp [same, recorded]
  next => rfl

include h recorded opened in
/-- What another open batch lists, this one does not. -/
theorem Sound.not_listed_open (other : n ≠ batch.nonce) (kept : b.batch n = some c)
    (opened' : c.state = .open) (listed : id ∈ c.ids) : id ∉ batch.ids := fun mem =>
  other (h.open_once recorded opened kept opened' mem listed)

include h recorded opened in
theorem Sound.closing_open_iff (ends : state ≠ .open) {other : RawAddress} :
    Function.update b.openNonce batch.contract.raw none other = some n ↔
      ∃ c, b.closing batch state n = some c ∧ c.state = .open ∧ c.contract.raw = other := by
  have own := h.open_iff.mpr ⟨batch, recorded, opened, rfl⟩
  rw [update_none_eq_some]
  constructor
  · rintro ⟨apart, open_nonce⟩
    obtain ⟨c, kept, opened', rfl⟩ := h.open_iff.mp open_nonce
    have old : n ≠ batch.nonce := by
      rintro rfl
      rw [recorded, Option.some.injEq] at kept
      exact apart (kept ▸ rfl)
    exact ⟨c, update_eq_some.mpr (.inr ⟨old, kept⟩), opened', rfl⟩
  · rintro ⟨c, found, opened', rfl⟩
    obtain ⟨old, kept⟩ := open_of_closing ends found opened'
    have open_nonce := h.open_iff.mpr ⟨c, kept, opened', rfl⟩
    refine ⟨fun same => old ?_, open_nonce⟩
    rw [same, own, Option.some.injEq] at open_nonce
    exact open_nonce.symm

include recorded in
/-- For a transfer that the batch does not list, the open batches are as before. -/
theorem closing_carried_iff (ends : state ≠ .open) (absent : id ∉ batch.ids) :
    (∃ c, b.closing batch state n = some c ∧ c.state = .open ∧ id ∈ c.ids) ↔
      ∃ c, b.batch n = some c ∧ c.state = .open ∧ id ∈ c.ids := by
  constructor
  · rintro ⟨c, found, opened', listed⟩
    exact ⟨c, (open_of_closing ends found opened').2, opened', listed⟩
  · rintro ⟨c, kept, opened', listed⟩
    have old : n ≠ batch.nonce := by
      rintro rfl
      rw [recorded, Option.some.injEq] at kept
      exact absent (kept ▸ listed)
    exact ⟨c, update_eq_some.mpr (.inr ⟨old, kept⟩), opened', listed⟩

include h recorded opened in
theorem Sound.disband_indexed (ends : state ≠ .open) : (b.disband batch state).Indexed := by
  constructor
  · intro p
    show p ∈ b.listed ∪ b.places batch.ids ↔ ∃ u, b.moved batch.ids .unbatched p.id = some u ∧ _
    rw [Set.mem_union, h.listed_iff]
    constructor
    · rintro (⟨t, kept, waits, rfl⟩ | ⟨mem, t, kept, rfl⟩)
      -- what waited already was in no open batch
      · have absent : t.position.id ∉ batch.ids := fun mem => by
          have carried := h.not_waiting recorded opened mem kept
          rw [waits] at carried
          cases carried
        exact ⟨t, by rwa [moved_of_not_mem absent], waits, rfl⟩
      · refine ⟨{ t with state := .unbatched }, moved_eq_some.mpr ⟨t, kept, ?_⟩, rfl, rfl⟩
        rw [if_pos mem]
    · rintro ⟨u, found, waits, rfl⟩
      by_cases mem : u.position.id ∈ batch.ids
      · obtain ⟨t, kept, rfl⟩ := of_moved_of_mem found mem
        exact .inr ⟨mem, t, kept, rfl⟩
      · rw [moved_of_not_mem mem] at found
        exact .inl ⟨u, found, waits, rfl⟩
  · exact h.closing_open_iff recorded opened ends

include h recorded opened in
theorem Sound.disband_grouped (ends : state = .cancelled ∨ state = .timedOut) :
    (b.disband batch state).Grouped := by
  have not_open : state ≠ .open := by rcases ends with rfl | rfl <;> decide
  have not_executed : state ≠ .executed := by rcases ends with rfl | rfl <;> decide
  -- the batch that ends is not executed, so the executed batches are those of before
  have executed_old {n c} (found : b.closing batch state n = some c)
      (executed : c.state = .executed) : b.batch n = some c := by
    rcases update_eq_some.mp found with ⟨_, rfl⟩ | ⟨_, kept⟩
    · exact absurd executed not_executed
    · exact kept
  constructor
  case carried_iff =>
    intro id u n found
    show _ ↔ ∃ c, b.closing batch state n = some c ∧ _
    by_cases mem : id ∈ batch.ids
    · obtain ⟨t, _, rfl⟩ := of_moved_of_mem found mem
      constructor
      · intro carried
        cases carried
      · rintro ⟨c, found', opened', listed⟩
        obtain ⟨other, kept⟩ := open_of_closing not_open found' opened'
        exact absurd mem (h.not_listed_open recorded opened other kept opened' listed)
    · rw [closing_carried_iff recorded not_open mem]
      exact h.carried_iff ((moved_of_not_mem mem).symm.trans found)
  case sized =>
    intro n c found
    obtain ⟨old, kept, _, ids⟩ := of_closing recorded found
    exact ids ▸ h.sized kept
  case ids_fresh =>
    intro n c id found listed
    obtain ⟨old, kept, _, ids⟩ := of_closing recorded found
    exact h.ids_fresh kept (ids ▸ listed)
  case open_kept =>
    intro n c id found opened' listed
    obtain ⟨t, kept, own⟩ := h.open_kept (open_of_closing not_open found opened').2 opened' listed
    obtain ⟨u, found', token⟩ := moved_of_kept kept
    exact ⟨u, found', token ▸ own⟩
  case open_ordered =>
    intro n c found opened'
    exact (h.open_ordered (open_of_closing not_open found opened').2 opened').moved rfl
  case executed_gone =>
    intro n c id found executed listed
    exact moved_eq_none (h.executed_gone (executed_old found executed) executed listed)
  case executed_once =>
    intro m n first second id foundM executedM foundN executedN listedM listedN
    exact h.executed_once (executed_old foundM executedM) executedM
      (executed_old foundN executedN) executedN listedM listedN

include h recorded opened in
theorem Sound.disband (ends : state = .cancelled ∨ state = .timedOut) :
    (b.disband batch state).Sound where
  toRecorded := by
    refine h.toRecorded.moved rfl rfl (fun found => ?_) ?_
    · obtain ⟨old, kept, nonce, _⟩ := of_closing recorded found
      exact nonce.trans (h.batch_nonce kept)
    · exact (closing_isSome recorded).trans h.numbered
  toIndexed := h.disband_indexed recorded opened (by rcases ends with rfl | rfl <;> decide)
  toGrouped := h.disband_grouped recorded opened ends
  held_eq denom := by
    rw [worth]
    exact (h.held_eq denom).trans (worthOf_moved b _ _ denom).symm
  no_empty_row := h.no_empty_row
  toConfigured := ⟨h.config_bounds, h.height_some⟩

/-! ## A batch is executed -/

theorem without_eq_some :
    b.without ids id = some u ↔ id ∉ ids ∧ b.transfer id = some u := by
  rw [without]
  split
  next mem => simp [mem]
  next absent => simp [absent]

variable {ts : List Transfer} (kept : batch.ids.map b.transfer = ts.map some)

include h recorded in
theorem Sound.settle_recorded : (b.settle batch ts).Recorded where
  transfer_id found := h.transfer_id (without_eq_some.mp found).2
  batch_nonce found := by
    obtain ⟨old, was, nonce, _⟩ := of_closing recorded found
    exact nonce.trans (h.batch_nonce was)
  spelled found := h.spelled (without_eq_some.mp found).2
  positive found := h.positive (without_eq_some.mp found).2
  first_id := h.first_id
  fresh found := h.fresh (without_eq_some.mp found).2
  numbered := (closing_isSome recorded).trans h.numbered

include h recorded opened in
theorem Sound.settle_indexed : (b.settle batch ts).Indexed := by
  constructor
  · intro p
    show p ∈ b.listed ↔ ∃ u, b.without batch.ids p.id = some u ∧ _
    rw [h.listed_iff]
    constructor
    · rintro ⟨t, found, waits, rfl⟩
      refine ⟨t, without_eq_some.mpr ⟨fun mem => ?_, found⟩, waits, rfl⟩
      have carried := h.not_waiting recorded opened mem found
      rw [waits] at carried
      cases carried
    · rintro ⟨u, found, waits, rfl⟩
      exact ⟨u, (without_eq_some.mp found).2, waits, rfl⟩
  · exact h.closing_open_iff recorded opened (by decide)

include h recorded opened in
theorem Sound.settle_grouped : (b.settle batch ts).Grouped := by
  have not_open : BatchState.executed ≠ .open := by decide
  constructor
  case carried_iff =>
    intro id u n found
    obtain ⟨absent, was⟩ := without_eq_some.mp found
    show _ ↔ ∃ c, b.closing batch .executed n = some c ∧ _
    rw [closing_carried_iff recorded not_open absent]
    exact h.carried_iff was
  case sized =>
    intro n c found
    obtain ⟨old, was, _, ids⟩ := of_closing recorded found
    exact ids ▸ h.sized was
  case ids_fresh =>
    intro n c id found listed
    obtain ⟨old, was, _, ids⟩ := of_closing recorded found
    exact h.ids_fresh was (ids ▸ listed)
  case open_kept =>
    intro n c id found opened' listed
    obtain ⟨other, was⟩ := open_of_closing not_open found opened'
    obtain ⟨t, there, own⟩ := h.open_kept was opened' listed
    have absent := h.not_listed_open recorded opened other was opened' listed
    exact ⟨t, without_eq_some.mpr ⟨absent, there⟩, own⟩
  case open_ordered =>
    intro n c found opened'
    refine (h.open_ordered (open_of_closing not_open found opened').2 opened').congr ?_
    intro id _ u found'
    exact ⟨u, (without_eq_some.mp found').2, rfl⟩
  case executed_gone =>
    intro n c id found executed listed
    rw [Option.eq_none_iff_forall_ne_some]
    intro u found'
    obtain ⟨absent, there⟩ := without_eq_some.mp found'
    rcases update_eq_some.mp found with ⟨_, rfl⟩ | ⟨_, was⟩
    · exact absent listed
    · rw [h.executed_gone was executed listed] at there
      cases there
  case executed_once =>
    -- what the batch lists is still kept, and what an executed batch lists is not
    have apart {n c id} (was : b.batch n = some c) (executed : c.state = .executed)
        (listed : id ∈ c.ids) : id ∉ batch.ids := by
      intro mem
      obtain ⟨t, there, _⟩ := h.open_kept recorded opened mem
      rw [h.executed_gone was executed listed] at there
      cases there
    intro m n first second id foundM executedM foundN executedN listedM listedN
    rcases update_eq_some.mp foundM with ⟨rfl, rfl⟩ | ⟨_, wasM⟩ <;>
      rcases update_eq_some.mp foundN with ⟨rfl, rfl⟩ | ⟨_, wasN⟩
    · rfl
    · exact absurd listedM (apart wasN executedN listedN)
    · exact absurd listedN (apart wasM executedM listedM)
    · exact h.executed_once wasM executedM wasN executedN listedM listedN

include h recorded opened kept in
theorem Sound.settle : (b.settle batch ts).Sound where
  toRecorded := h.settle_recorded recorded
  toIndexed := h.settle_indexed recorded opened
  toGrouped := h.settle_grouped recorded opened
  held_eq denom := by
    have change := worthOf_without b (h.sized recorded).2.2 kept denom
    have before := h.held_eq denom
    have paid := Holdings.held_spendAll b.locked ts denom
    rw [worth]
    show (b.locked.spendAll ts).held denom = worthOf (b.without batch.ids) denom
    omega
  no_empty_row := h.no_empty_row.spendAll ts
  toConfigured := ⟨h.config_bounds, h.height_some⟩

end Close

end BridgePool.Book
