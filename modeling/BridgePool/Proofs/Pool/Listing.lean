import BridgePool.Pool.Listing
import BridgePool.Proofs.Book.Sound
import BridgePool.Proofs.Store.Keeps
import Mathlib.Data.Set.List

/-!
# What a listing says of the book

The listing of a contract goes through the positions that the book lists of it, in listing order
(`Listing.ofContract_eq`); there is only one list of that kind (`Book.Lists.unique`). The first
transfers of a listing are the records at its first positions (`Listing.first_eq_ok`).
-/

namespace BridgePool

/-- A traversal succeeds exactly when every single step does. -/
theorem mapM_eq_ok {α β ε : Type} {f : α → Except ε β} {xs : List α} {ys : List β} :
    xs.mapM f = .ok ys ↔ List.Forall₂ (fun x y => f x = .ok y) xs ys := by
  induction xs generalizing ys with
  | nil => cases ys <;> simp [pure, Except.pure]
  | cons x xs ih =>
      rw [List.mapM_cons]
      cases head : f x with
      | error fault => cases ys <;> simp [head, bind, Except.bind]
      | ok y =>
          cases tail : xs.mapM f with
          | error fault => cases ys <;> simp [← ih, head, tail, bind, Except.bind]
          | ok rest =>
              cases ys <;> simp [← ih, head, tail, bind, Except.bind, pure, Except.pure]

/-- A traversal whose single steps all succeed succeeds, and what holds of the steps holds along
it. -/
theorem exists_mapM_eq_ok {α β ε : Type} {f : α → Except ε β} {P : α → β → Prop} {xs : List α}
    (steps : ∀ x ∈ xs, ∃ y, f x = .ok y ∧ P x y) :
    ∃ ys, xs.mapM f = .ok ys ∧ List.Forall₂ P xs ys := by
  simp only [mapM_eq_ok]
  induction xs with
  | nil => exact ⟨[], .nil, .nil⟩
  | cons x xs ih =>
      obtain ⟨now, later⟩ := List.forall_mem_cons.mp steps
      obtain ⟨y, step, holds⟩ := now
      obtain ⟨ys, all, hold⟩ := ih later
      exact ⟨y :: ys, .cons step all, .cons holds hold⟩

/-- A traversal whose single steps all find something of one kind finds only such things. -/
theorem exists_mapM_forall {α β ε : Type} {f : α → Except ε β} {P : β → Prop} {xs : List α}
    (steps : ∀ x ∈ xs, ∃ y, f x = .ok y ∧ P y) :
    ∃ ys, xs.mapM f = .ok ys ∧ ∀ y ∈ ys, P y := by
  have found {zs : List α} {ys : List β} (each : List.Forall₂ (fun _ y => P y) zs ys) :
      ∀ y ∈ ys, P y := by
    induction each with
    | nil => exact nofun
    | cons first _ ih => exact List.forall_mem_cons.mpr ⟨first, ih⟩
  obtain ⟨ys, all, each⟩ := exists_mapM_eq_ok steps
  exact ⟨ys, all, found each⟩

namespace Book

variable {b : Book} {contract : RawAddress} {ps qs : List Position}

theorem Lists.nodup (h : b.Lists contract ps) : ps.Nodup := by
  apply h.1.imp
  intro p q before same
  subst same
  exact Position.before.irrefl before

/-- The members and their order determine a listing. -/
theorem Lists.unique (hp : b.Lists contract ps) (hq : b.Lists contract qs) : ps = qs := by
  -- the two lists have the same members, and the order between them is strict
  have same : ps.Perm qs :=
    (List.perm_ext_iff_of_nodup hp.nodup hq.nodup).mpr fun p => (hp.2 p).trans (hq.2 p).symm
  refine same.eq_of_pairwise ?_ hp.1 hq.1
  intro p q memP memQ before after
  have contracts : p.contract = q.contract := ((hp.2 p).mp memP).2.trans ((hq.2 q).mp memQ).2.symm
  exact absurd after (before.asymm contracts)

end Book

variable {s : Store} {b : Book}

/-- The keys of a contract's fee rows, last one first. -/
def Store.feeKeys (s : Store) (contract : RawAddress) : List Bytes :=
  (s.range (Cell.feeStart contract) (Bytes.rangeEnd (Cell.feeStart contract))).reverse.map Prod.fst

/-- They are the keys of the positions that the book lists of the contract. -/
theorem Store.Keeps.mem_feeKeys (h : s.Keeps b) {contract : RawAddress} {key : Bytes} :
    key ∈ s.feeKeys contract ↔
      ∃ p : Position, p ∈ b.listed ∧ p.contract = contract ∧ p.cell.key = key := by
  simp only [feeKeys, List.mem_map, List.mem_reverse, mem_range, Prod.exists, h.mem_listed,
    Option.isSome_iff_exists]
  constructor
  · rintro ⟨_, row, ⟨found, bounds⟩, rfl⟩
    obtain ⟨c, rfl, _⟩ := h.legible _ _ found
    obtain ⟨amount, id, rfl⟩ :=
      Cell.feeStart_prefix_key_iff.mp (Cell.mem_feeStart_range.mp bounds)
    exact ⟨⟨contract, amount, id⟩, ⟨row, found⟩, rfl, rfl⟩
  · rintro ⟨p, ⟨row, found⟩, rfl, rfl⟩
    exact ⟨_, row, ⟨found, Cell.mem_feeStart_range.mpr
      (Cell.feeStart_prefix_key_iff.mpr ⟨p.fee, p.id, rfl⟩)⟩, rfl⟩

theorem Store.feeKeys_descending (s : Store) (contract : RawAddress) :
    (s.feeKeys contract).Pairwise fun k l => l < k := by
  rw [feeKeys, List.pairwise_map, List.pairwise_reverse]
  exact sorted_range s _ _

/-- A list of keys of positions is the image of a list of positions. -/
theorem Position.exists_of_keys {keys : List Bytes}
    (all : ∀ key ∈ keys, ∃ p : Position, p.cell.key = key) :
    ∃ ps : List Position, keys = ps.map (·.cell.key) ∧
      ∀ p : Position, p.cell.key ∈ keys ↔ p ∈ ps := by
  have positions : keys ∈ Set.range (List.map fun p : Position => p.cell.key) := by
    rw [Set.range_list_map]
    exact all
  obtain ⟨ps, rfl⟩ := positions
  exact ⟨ps, rfl, fun p => by simp⟩

/-- The rows of a contract's listing belong to the positions that the book lists of it. -/
theorem Store.Keeps.feeKeys_eq (h : s.Keeps b) (contract : RawAddress) :
    ∃ ps, b.Lists contract ps ∧ s.feeKeys contract = ps.map (·.cell.key) := by
  obtain ⟨ps, keys, named⟩ := Position.exists_of_keys fun key mem =>
    (h.mem_feeKeys.mp mem).imp fun _ found => found.2.2
  have mem (p : Position) : p ∈ ps ↔ p ∈ b.listed ∧ p.contract = contract := by
    rw [← named, h.mem_feeKeys]
    constructor
    · rintro ⟨q, listed, own, same⟩
      obtain rfl := Position.cell_inj.mp (Cell.key_inj.mp same)
      exact ⟨listed, own⟩
    · rintro ⟨listed, own⟩
      exact ⟨p, listed, own, rfl⟩
  -- the scan goes down the keys, which is listing order for positions of one contract
  have descending := s.feeKeys_descending contract
  rw [keys, List.pairwise_map] at descending
  refine ⟨ps, ⟨descending.imp_of_mem fun {p q} memP memQ below => ?_, mem⟩, keys⟩
  have same : p.contract = q.contract := ((mem p).mp memP).2.trans ((mem q).mp memQ).2.symm
  exact (Position.key_lt_iff same).mp below

namespace Listing

theorem fetch_eq_ok (h : s.Keeps b) {id : UInt64} {t : Transfer} :
    fetch s (.ok id) = .ok t ↔ b.transfer id = some t := by
  simp only [fetch, bind, Except.bind, h.transfer?]
  cases b.transfer id <;> simp [pure, Except.pure]

/-- The listing of a contract goes through its positions in listing order. -/
theorem ofContract_eq (h : s.Keeps b) {contract : RawAddress} {ps : List Position}
    (lists : b.Lists contract ps) :
    ofContract s contract none = ps.map fun p => .ok p.id := by
  obtain ⟨qs, lists', keys⟩ := h.feeKeys_eq contract
  obtain rfl := lists.unique lists'
  have keys := congrArg (List.map fun key => (Cell.feeKey? key).map Prod.snd) keys
  rw [Store.feeKeys, List.map_map, List.map_map] at keys
  refine keys.trans (List.map_congr_left fun p _ => ?_)
  rw [Function.comp_apply, Position.cell, Cell.feeKey?_key]
  rfl

/-- The first transfers of a listing are the records at its first positions. -/
theorem first_eq_ok (h : s.Keeps b) {contract : RawAddress} {ps : List Position}
    (lists : b.Lists contract ps) {count : Nat} {ts : List Transfer} :
    first s (ofContract s contract none) count = .ok ts ↔
      ((ps.take count).map Position.id).map b.transfer = ts.map some := by
  rw [first, ofContract_eq h lists, ← List.map_take, mapM_eq_ok, ← List.forall₂_eq_eq_eq,
    List.map_map, List.forall₂_map_left_iff, List.forall₂_map_left_iff,
    List.forall₂_map_right_iff]
  simp only [fetch_eq_ok h, Function.comp_apply]

end Listing

end BridgePool
