import BridgePool.Proofs.Pool.Scan

/-!
# The roster of the pool

`Store.roster` sorts all waiting transfers in listing order: contracts ascending, then fees
descending, then ids descending. It is made from the records alone, and every listing is a part of
it (`Store.Listed.eq_filter_roster`).

A cursor of sixty bytes is read as three numbers (`Position.ofBytes`), whatever they are. What
`Follows` it is an end of the roster (`Store.Legible.follows_suffix`).
-/

namespace BridgePool

/-- The elements from where a predicate starts to hold are the end of an ordered list. -/
theorem filter_suffix {α : Type} {r : α → α → Prop} {keep : α → Prop} [DecidablePred keep]
    {xs : List α} (ordered : xs.Pairwise r) (goes_on : ∀ x y, r x y → keep x → keep y) :
    xs.filter keep <:+ xs := by
  induction xs with
  | nil => exact List.suffix_refl _
  | cons x xs ih =>
      obtain ⟨before, ordered⟩ := List.pairwise_cons.mp ordered
      by_cases kept : keep x
      · have all : ∀ y ∈ x :: xs, decide (keep y) = true := by
          refine List.forall_mem_cons.mpr ⟨decide_eq_true kept, fun y mem => ?_⟩
          exact decide_eq_true (goes_on x y (before y mem) kept)
        rw [List.filter_eq_self.mpr all]
      · rw [List.filter_cons_of_neg (by simpa using kept)]
        exact (ih ordered).trans (List.suffix_cons x xs)

/-! ## The sorted pool -/

/-- Of two positions one comes first, unless they are the same. -/
theorem Position.before_trichotomy (p q : Position) : p.before q ∨ p = q ∨ q.before p := by
  rcases Std.lt_trichotomy p.contract.val q.contract.val with lower | same | higher
  · exact .inl (.inl lower)
  · have contracts : p.contract = q.contract := Subtype.ext same
    have numbers : (q.fee.val < p.fee.val ∨ q.fee.val = p.fee.val ∧ q.id < p.id) ∨
        (q.fee.val = p.fee.val ∧ q.id = p.id) ∨
          (p.fee.val < q.fee.val ∨ p.fee.val = q.fee.val ∧ p.id < q.id) := by
      rw [UInt64.lt_iff_toNat_lt, UInt64.lt_iff_toNat_lt, ← UInt64.toNat_inj]
      omega
    rcases numbers with before | ⟨fees, ids⟩ | after
    · exact .inl (.inr ⟨contracts, before⟩)
    · exact .inr (.inl (Position.ext contracts (Amount.ext fees.symm) ids.symm))
    · exact .inr (.inr (.inr ⟨contracts.symm, after⟩))
  · exact .inr (.inr (.inl higher))

namespace Transfer

instance : DecidableRel listedBefore :=
  fun t u => inferInstanceAs (Decidable (t.position.before u.position))

variable {t u v : Transfer}

theorem not_listedBefore_trans (first : ¬ u.listedBefore t) (second : ¬ v.listedBefore u) :
    ¬ v.listedBefore t := by
  intro back
  rcases Position.before_trichotomy t.position u.position with before | same | after
  · exact second (back.trans before)
  · rw [listedBefore_iff, same] at back
    exact second back
  · exact first after

theorem not_listedBefore_total (t u : Transfer) : ¬ u.listedBefore t ∨ ¬ t.listedBefore u := by
  by_cases before : u.listedBefore t
  · exact .inr before.asymm
  · exact .inl before

/-- Of two transfers with different ids one is listed before the other. -/
theorem listedBefore_of_not (different : t.id ≠ u.id) (h : ¬ u.listedBefore t) :
    t.listedBefore u := by
  rcases Position.before_trichotomy t.position u.position with before | same | after
  · exact before
  · exact absurd (congrArg Position.id same) different
  · exact absurd after h

end Transfer

namespace Store

/-- The waiting transfers, sorted in listing order. -/
def roster (s : Store) : List Transfer :=
  s.waiting.mergeSort fun t u => ¬ u.listedBefore t

variable {s : Store} {t : Transfer}

theorem mem_roster : t ∈ s.roster ↔ t ∈ s.waiting :=
  List.mem_mergeSort

theorem Legible.listed_roster (h : s.Legible) : s.Listed (fun _ => True) s.roster where
  ordered := by
    have sorted : s.roster.Pairwise fun t u => ¬ u.listedBefore t :=
      pairwise_mergeSort_not Transfer.listedBefore Transfer.not_listedBefore_trans
        Transfer.not_listedBefore_total _
    have different : s.roster.Pairwise fun t u => t.id ≠ u.id := by
      have same_ids := (List.mergeSort_perm s.waiting fun t u => ¬ u.listedBefore t).map (·.id)
      exact List.pairwise_map.mp (same_ids.nodup_iff.mpr h.nodup_waiting)
    refine (sorted.and different).imp ?_
    rintro t u ⟨notAfter, different⟩
    exact Transfer.listedBefore_of_not different notAfter
  mem_iff t := by rw [mem_roster, and_iff_left trivial]

/-- What is listed is a part of the roster. -/
theorem Listed.eq_filter_roster {select : Transfer → Prop} [DecidablePred select]
    {ts : List Transfer} (h : s.Listed select ts) (legible : s.Legible) :
    ts = s.roster.filter select :=
  h.unique ((legible.listed_roster.filter select).congr fun _ _ => and_iff_right trivial)

end Store

/-! ## Cursors -/

/-- The position that sixty bytes name: twenty for the contract, thirty-two for the fee, and eight
for the id. -/
def Position.ofBytes (cursor : Bytes) (long : cursor.length = 60) : Position where
  contract := ⟨cursor.take 20, by rw [List.length_take, long]; rfl⟩
  fee :=
    ⟨Bytes.toNat ((cursor.drop 20).take 32), by
      have bound := Bytes.toNat_lt ((cursor.drop 20).take 32)
      rw [List.length_take, List.length_drop, long] at bound
      exact bound⟩
  id :=
    .ofNatLT (Bytes.toNat (cursor.drop 52)) (by
      have bound := Bytes.toNat_lt (cursor.drop 52)
      rw [List.length_drop, long] at bound
      exact bound)

namespace Listing

/-- The bytes are those of the position that they name. -/
theorem cursorOf_ofBytes {cursor : Bytes} (long : cursor.length = 60) :
    cursorOf (.ofBytes cursor long) = cursor := by
  have width : ((cursor.drop 20).take 32).length = 32 := by
    rw [List.length_take, List.length_drop, long]
    rfl
  have eight : (cursor.drop 52).length = 8 := by rw [List.length_drop, long]
  have fee := Bytes.bigEndian_toNat ((cursor.drop 20).take 32)
  have id := Bytes.bigEndian_toNat (cursor.drop 52)
  rw [width] at fee
  rw [eight] at id
  have word : Cell.word (Position.ofBytes cursor long).id = cursor.drop 52 := by
    rw [Cell.word, Position.ofBytes, UInt64.toNat_ofNatLT, id]
  rw [cursorOf, Position.cell, Cell.fee_key_eq, List.drop_succ_cons, List.drop_zero, word]
  show cursor.take 20 ++ (Bytes.bigEndian 32 (Bytes.toNat ((cursor.drop 20).take 32)) ++ _) = cursor
  rw [fee, ← List.drop_drop (i := 32) (j := 20), List.take_append_drop, List.take_append_drop]

theorem ofBytes_cursorOf (p : Position) (long : (cursorOf p).length = 60) :
    Position.ofBytes (cursorOf p) long = p := by
  have keys : (Position.ofBytes (cursorOf p) long).cell.key = p.cell.key := by
    rw [← cons_cursorOf, ← cons_cursorOf, cursorOf_ofBytes]
  exact Position.cell_inj.mp (Cell.key_inj.mp keys)

/-- A cursor ahead of all rows of the token with the lowest bytes. -/
def firstCursor : Bytes :=
  List.replicate 20 0x00 ++ List.replicate 40 0xff

end Listing

/-- The transfer comes strictly after the position that a cursor names. -/
def Transfer.Follows (t : Transfer) (cursor : Bytes) : Prop :=
  ∃ long : cursor.length = 60, (Position.ofBytes cursor long).before t.position

instance (cursor : Bytes) : DecidablePred (Transfer.Follows · cursor) := fun t =>
  if long : cursor.length = 60 then
    decidable_of_iff ((Position.ofBytes cursor long).before t.position)
      ⟨fun before => ⟨long, before⟩, fun ⟨_, before⟩ => before⟩
  else isFalse fun ⟨exact, _⟩ => long exact

theorem Transfer.follows_cursorOf {t : Transfer} {p : Position} :
    t.Follows (Listing.cursorOf p) ↔ p.before t.position := by
  have long : (Listing.cursorOf p).length = 60 := Listing.exists_cursorOf_iff.mp ⟨p, rfl⟩
  rw [Follows, exists_prop_of_true long, Listing.ofBytes_cursorOf]

/-- The rows after a position are those after its cursor, also where there is neither. -/
theorem Transfer.follows_map_cursorOf {t : Transfer} {after : Option Position} :
    (∀ cursor ∈ after.map Listing.cursorOf, t.Follows cursor) ↔
      ∀ p ∈ after, p.before t.position := by
  cases after with
  | none => simp
  | some p => simp [follows_cursorOf]

/-- What follows a cursor is an end of the roster. -/
theorem Store.Legible.follows_suffix {s : Store} (h : s.Legible) (cursor : Bytes) :
    s.roster.filter (·.Follows cursor) <:+ s.roster :=
  filter_suffix h.listed_roster.ordered fun _ _ before ⟨long, after⟩ => ⟨long, after.trans before⟩

end BridgePool
