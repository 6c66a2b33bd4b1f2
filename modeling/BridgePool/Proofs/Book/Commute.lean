import BridgePool.Proofs.Book.Moves

/-!
# Settlements of a book commute

What a deed writes is a function of what was there (`Move.transfer_congr`, `Move.batch_congr`), and
a sound book is determined by its records and its single entries (`Book.Sound.eq_of_records`): the
fee rows, the open nonces and the ledger follow from them. So two settlements that write different
records lead to one book, in either order (`Move.commute`), also when one of them empties a row of
the ledger that the other takes from.
-/

namespace BridgePool

/-- What can be settled. -/
inductive Pending where
  /-- A send that waits. -/
  | send (id : UInt64)
  /-- An open batch. -/
  | batch (nonce : UInt64)
  deriving DecidableEq

namespace Deed

/-- What a deed settles, if it settles anything. -/
def settles? : Deed → Option Pending
  | .refund t => some (.send t.id)
  | .disband batch _ => some (.batch batch.nonce)
  | .settle batch _ => some (.batch batch.nonce)
  | _ => none

/-- The ids of the transfers whose records a deed writes. -/
def ids : Deed → List UInt64
  | .accept t => [t.id]
  | .refund t => [t.id]
  | .gather batch => batch.ids
  | .disband batch _ => batch.ids
  | .settle batch _ => batch.ids
  | _ => []

/-- The nonces of the batches whose records a deed writes. -/
def nonces : Deed → List UInt64
  | .gather batch => [batch.nonce]
  | .disband batch _ => [batch.nonce]
  | .settle batch _ => [batch.nonce]
  | _ => []

end Deed

variable {b b' b₁ b₁' b₂ b₃ b₄ : Book} {d e : Deed} {id n : UInt64} {i j : Pending}

/-! ## What a deed writes -/

/-- An updated map depends at a key on the old map at that key alone. -/
theorem update_congr {κ α : Type} [DecidableEq κ] {f g : κ → α} {k x : κ} {a : α}
    (same : f x = g x) : Function.update f k a x = Function.update g k a x := by
  rw [Function.update_apply, Function.update_apply, same]

namespace Book

variable {ids : List UInt64} {state : TransferState}

theorem moved_congr (same : b'.transfer id = b.transfer id) :
    b'.moved ids state id = b.moved ids state id := by
  rw [moved, moved, same]

theorem without_congr (same : b'.transfer id = b.transfer id) :
    b'.without ids id = b.without ids id := by
  rw [without, without, same]

end Book

namespace Move

theorem transfer_of_not_mem (m : Move b d b') (absent : id ∉ d.ids) :
    b'.transfer id = b.transfer id := by
  cases m with
  | accept => exact Function.update_of_ne (mt List.mem_singleton.mpr absent) _ _
  | refund => exact Function.update_of_ne (mt List.mem_singleton.mpr absent) _ _
  | gather => exact Book.moved_of_not_mem absent
  | disband => exact Book.moved_of_not_mem absent
  | settle => exact if_neg absent
  | _ => rfl

theorem batch_of_not_mem (m : Move b d b') (absent : n ∉ d.nonces) : b'.batch n = b.batch n := by
  cases m with
  | gather => exact Function.update_of_ne (mt List.mem_singleton.mpr absent) _ _
  | disband => exact Function.update_of_ne (mt List.mem_singleton.mpr absent) _ _
  | settle => exact Function.update_of_ne (mt List.mem_singleton.mpr absent) _ _
  | _ => rfl

/-- What a deed makes of a transfer depends on the record of that transfer alone. -/
theorem transfer_congr (m : Move b d b') (m₁ : Move b₁ d b₁')
    (same : b₁.transfer id = b.transfer id) : b₁'.transfer id = b'.transfer id := by
  cases m <;> cases m₁
  case accept => exact update_congr same
  case refund => exact update_congr same
  case gather => exact Book.moved_congr same
  case disband => exact Book.moved_congr same
  case settle => exact Book.without_congr same
  all_goals exact same

/-- What a deed makes of a batch depends on the record of that batch alone. -/
theorem batch_congr (m : Move b d b') (m₁ : Move b₁ d b₁') (same : b₁.batch n = b.batch n) :
    b₁'.batch n = b'.batch n := by
  cases m <;> cases m₁
  case gather => exact update_congr same
  case disband => exact update_congr same
  case settle => exact update_congr same
  all_goals exact same

/-- Of a part of the book that holds this of every deed, two deeds that write different entries
make the same in either order. -/
theorem part_comm {κ α : Type} {part : Book → κ → α} {writes : Deed → List κ} [DecidableEq κ]
    (kept : ∀ {b d b' k}, Move b d b' → k ∉ writes d → part b' k = part b k)
    (congr : ∀ {b d b' b₁ b₁' k}, Move b d b' → Move b₁ d b₁' → part b₁ k = part b k →
      part b₁' k = part b' k)
    (m : Move b d b₁) (n : Move b₁ e b₃) (m' : Move b e b₂) (n' : Move b₂ d b₄)
    (disjoint : (writes d).Disjoint (writes e)) : part b₄ = part b₃ := by
  funext k
  by_cases mem : k ∈ writes d
  · -- the other deed leaves the entry alone, before this one and after it
    have untouched := disjoint mem
    rw [congr m n' (kept m' untouched), kept n untouched]
  · rw [kept n' mem, congr n m' (kept m mem).symm]

end Move

/-! ## Books with the same records -/

/-- A ledger without empty rows is determined by what it holds. -/
theorem Holdings.NoEmptyRow.ext {l l' : Holdings} (h : l.NoEmptyRow) (h' : l'.NoEmptyRow)
    (same : ∀ denom, l'.held denom = l.held denom) : l' = l := by
  funext denom
  have sums := same denom
  rw [held, held] at sums
  cases row : l denom with
  | none =>
      cases row' : l' denom with
      | none => rfl
      | some amount =>
          rw [row, row'] at sums
          exact absurd sums (h' denom amount row')
  | some amount =>
      cases row' : l' denom with
      | none =>
          rw [row, row'] at sums
          exact absurd sums.symm (h denom amount row)
      | some other =>
          rw [row, row'] at sums
          exact congrArg some (Amount.ext sums)

namespace Book

/-- The counters and the single records of a book. -/
def singles (b : Book) : Option UInt64 × Option UInt64 × Option Config × Option Proposal ×
    Option UInt64 × Option Release :=
  (b.nextId, b.lastNonce, b.config, b.proposal, b.height, b.release)

/-- A sound book is determined by its records and its single entries. -/
theorem Sound.eq_of_records (h : b.Sound) (h' : b'.Sound) (transfers : b'.transfer = b.transfer)
    (batches : b'.batch = b.batch) (singles : b'.singles = b.singles) : b' = b := by
  obtain ⟨nextId, lastNonce, config, proposal, height, release⟩ :
      b'.nextId = b.nextId ∧ b'.lastNonce = b.lastNonce ∧ b'.config = b.config ∧
        b'.proposal = b.proposal ∧ b'.height = b.height ∧ b'.release = b.release := by
    simpa only [Book.singles, Prod.mk.injEq] using singles
  have listed : b'.listed = b.listed := by
    ext p
    rw [h'.listed_iff, h.listed_iff, transfers]
  have openNonce : b'.openNonce = b.openNonce := by
    funext contract
    apply Option.ext
    intro n
    rw [h'.open_iff, h.open_iff, batches]
  have locked : b'.locked = b.locked := by
    apply h.no_empty_row.ext h'.no_empty_row
    intro denom
    rw [h'.held_eq, h.held_eq, worth, worth, transfers]
  exact Book.ext transfers listed batches nextId lastNonce openNonce locked config proposal height
    release

end Book

/-! ## Settlements -/

/-- What is pending in a book, with the transfers and batches whose records its settlement
writes. -/
inductive Book.Pends (b : Book) : Pending → List UInt64 → List UInt64 → Prop
  | send {t : Transfer} (kept : b.transfer t.id = some t) (waits : t.state = .unbatched) :
      Pends b (.send t.id) [t.id] []
  | batch {batch : Batch} (recorded : b.batch batch.nonce = some batch)
      (opened : batch.state = .open) : Pends b (.batch batch.nonce) batch.ids [batch.nonce]

/-- Different pending things have no record in common. -/
theorem Book.Sound.disjoint_of_pends (h : b.Sound) {ids ids' nonces nonces' : List UInt64}
    (p : b.Pends i ids nonces) (q : b.Pends j ids' nonces') (apart : i ≠ j) :
    ids.Disjoint ids' ∧ nonces.Disjoint nonces' := by
  cases p with
  | send kept waits =>
      cases q with
      | send kept' waits' =>
          refine ⟨?_, List.disjoint_nil_left _⟩
          rw [List.disjoint_singleton, List.mem_singleton]
          exact fun same => apart (congrArg _ same.symm)
      | batch recorded opened =>
          refine ⟨?_, List.disjoint_nil_left _⟩
          rw [List.singleton_disjoint]
          exact h.not_listed_waiting kept waits recorded opened
  | batch recorded opened =>
      cases q with
      | send kept waits =>
          refine ⟨?_, List.disjoint_nil_right _⟩
          rw [List.disjoint_singleton]
          exact h.not_listed_waiting kept waits recorded opened
      | batch recorded' opened' =>
          constructor
          · intro id listed listed'
            have same := h.open_once recorded opened recorded' opened' listed listed'
            exact apart (congrArg _ same.symm)
          · rw [List.disjoint_singleton, List.mem_singleton]
            exact fun same => apart (congrArg _ same.symm)

namespace Move

theorem pends (m : Move b d b') (settles : d.settles? = some i) : b.Pends i d.ids d.nonces := by
  cases m with
  | refund kept waits =>
      obtain rfl := Option.some.inj settles
      exact .send kept waits
  | disband recorded opened _ =>
      obtain rfl := Option.some.inj settles
      exact .batch recorded opened
  | settle recorded opened _ =>
      obtain rfl := Option.some.inj settles
      exact .batch recorded opened
  | _ => cases settles

/-- Settlements write no counter and no single record. -/
theorem singles_eq (m : Move b d b') (settles : d.settles? = some i) : b'.singles = b.singles := by
  cases m with
  | refund => rfl
  | disband => rfl
  | settle => rfl
  | _ => cases settles

theorem config_eq_of_settles (m : Move b d b') (settles : d.settles? = some i) :
    b'.config = b.config :=
  congrArg (·.2.2.1) (m.singles_eq settles)

/-- A settlement is still possible after a deed that writes other records. -/
theorem exists_after (m : Move b d b₁) (m' : Move b e b₂) (settles : e.settles? = some j)
    (ids : d.ids.Disjoint e.ids) (nonces : d.nonces.Disjoint e.nonces) : ∃ b₃, Move b₁ e b₃ := by
  have kept : ∀ id ∈ e.ids, b₁.transfer id = b.transfer id :=
    fun id mem => m.transfer_of_not_mem fun mem' => ids mem' mem
  have recorded : ∀ n ∈ e.nonces, b₁.batch n = b.batch n :=
    fun n mem => m.batch_of_not_mem fun mem' => nonces mem' mem
  cases m' with
  | refund found waits =>
      exact ⟨_, .refund ((kept _ (List.mem_singleton_self _)).trans found) waits⟩
  | disband found opened ends =>
      exact ⟨_, .disband ((recorded _ (List.mem_singleton_self _)).trans found) opened ends⟩
  | settle found opened all =>
      exact ⟨_, .settle ((recorded _ (List.mem_singleton_self _)).trans found) opened
        ((List.map_congr_left kept).trans all)⟩
  | _ => cases settles

/-- Settlements of different things lead to one book, in either order. -/
theorem commute (h : b.Sound) (m : Move b d b₁) (m' : Move b e b₂)
    (settles : d.settles? = some i) (settles' : e.settles? = some j) (apart : i ≠ j) :
    ∃ b₃, Move b₁ e b₃ ∧ Move b₂ d b₃ := by
  obtain ⟨ids, nonces⟩ := h.disjoint_of_pends (m.pends settles) (m'.pends settles') apart
  obtain ⟨b₃, n⟩ := m.exists_after m' settles' ids nonces
  obtain ⟨b₄, n'⟩ := m'.exists_after m settles ids.symm nonces.symm
  have same : b₄ = b₃ := by
    apply ((h.move m).move n).eq_of_records ((h.move m').move n')
    · exact part_comm transfer_of_not_mem transfer_congr m n m' n' ids
    · exact part_comm batch_of_not_mem batch_congr m n m' n' nonces
    · rw [n'.singles_eq settles, m'.singles_eq settles', n.singles_eq settles',
        m.singles_eq settles]
  exact ⟨b₃, n, same ▸ n'⟩

end Move

theorem Moves.singles_eq {ds : List Deed} (m : Moves b ds b')
    (settle : ∀ d ∈ ds, ∃ i, d.settles? = some i) : b'.singles = b.singles :=
  m.preserve Book.singles (fun first ⟨_, settles⟩ => first.singles_eq settles) settle

end BridgePool
