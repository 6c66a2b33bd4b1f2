import BridgePool.Proofs.Bytes
import BridgePool.Store.Cell

/-!
# Keys tell cells apart

* `Cell.key_injective` — no two things are kept in one place;
* `Cell.feeKey?_key`, `Cell.word?_word` — what the keys of fee rows and the rows of counters say
  can be read back, and nothing else reads as the key of a fee row (`Cell.feeKey?_eq_ok`);
* `Cell.fee_key_lt_iff`, `Cell.compare_fee_key` — fee rows sort by contract, then by fee, then by
  id;
* `Cell.batch_key_le_iff` — rows of batches sort by nonce;
* `Cell.mem_family_range`, `Cell.mem_feeStart_range`, `Cell.fee_key_lt_rangeEnd_iff` — the keys that
  a scan of one kind of rows meets.
-/

namespace BridgePool

namespace Cell

/-- The first byte of a cell's key. -/
def family : Cell → UInt8
  | .transfer _ => 0x01
  | .fee _ _ _ => 0x02
  | .batch _ => 0x03
  | .nextId => 0x04
  | .lastNonce => 0x05
  | .openBatch _ => 0x06
  | .locked _ => 0x00
  | .config => 0x63
  | .proposal => 0x70
  | .observedHeight => 0x6c
  | .release => 0x63

theorem head?_key (c : Cell) : c.key.head? = some c.family := by
  cases c with
  | config => decide
  | proposal => decide
  | observedHeight => decide
  | release => decide
  | _ => rfl

/-! ## Words -/

theorem length_word (n : UInt64) : (word n).length = 8 :=
  Bytes.length_bigEndian 8 n.toNat

theorem word_lt_size (n : UInt64) : n.toNat < 256 ^ 8 := by
  have := n.toNat_lt
  norm_num at this ⊢
  exact this

theorem word_injective {m n : UInt64} (h : word m = word n) : m = n :=
  UInt64.toNat_inj.mp ((Bytes.bigEndian_inj (word_lt_size m) (word_lt_size n)).mp h)

theorem word_lt_iff {m n : UInt64} : word m < word n ↔ m < n := by
  rw [word, word, Bytes.bigEndian_lt_iff (word_lt_size m) (word_lt_size n),
    UInt64.lt_iff_toNat_lt]

theorem compare_word (m n : UInt64) : compareOfLessAndEq (word m) (word n) = compare m n := by
  have equal : word m = word n ↔ m = n := ⟨word_injective, congrArg word⟩
  show _ = compareOfLessAndEq m n
  simp only [compareOfLessAndEq, word_lt_iff, equal]

/-- The number of a word's bytes is the word. -/
theorem ofNat_toNat_word (n : UInt64) : UInt64.ofNat (Bytes.toNat (word n)) = n := by
  rw [word, Bytes.toNat_bigEndian, Nat.mod_eq_of_lt (word_lt_size n), UInt64.ofNat_toNat]

theorem word?_word (n : UInt64) : word? (word n) = .ok n := by
  rw [word?, if_pos (length_word n), ofNat_toNat_word]

/-! ## Rows of batches -/

/-- Rows of batches are kept in the order of their nonces. -/
theorem batch_key_lt_iff {m n : UInt64} : (batch m).key < (batch n).key ↔ m < n := by
  simp [key, word_lt_iff]

theorem batch_key_le_iff {m n : UInt64} : (batch m).key ≤ (batch n).key ↔ m ≤ n := by
  rw [← List.not_lt, batch_key_lt_iff, UInt64.not_lt]

/-! ## Fee rows -/

theorem amount_lt_size (amount : TokenAmount) : amount.val < 256 ^ 32 := by
  have := amount.isLt
  norm_num at this ⊢
  exact this

theorem fee_key_eq (contract : RawAddress) (amount : TokenAmount) (id : UInt64) :
    key (.fee contract amount id) =
      0x02 :: (contract.val ++ (Bytes.bigEndian 32 amount.val ++ word id)) := by
  simp [key, feeStart]

/-- Fee rows sort by contract, then by fee, then by id. -/
theorem fee_key_lt_iff {c d : RawAddress} {a b : TokenAmount} {i j : UInt64} :
    key (.fee c a i) < key (.fee d b j) ↔
      c.val < d.val ∨ c = d ∧ (a.val < b.val ∨ a.val = b.val ∧ i < j) := by
  -- the fields have fixed widths, so the keys compare field by field
  have contracts : c.val.length = d.val.length := by rw [c.property, d.property]
  have widths : (Bytes.bigEndian 32 a.val).length = (Bytes.bigEndian 32 b.val).length := by simp
  have amounts := Bytes.bigEndian_lt_iff (amount_lt_size a) (amount_lt_size b)
  have equal := Bytes.bigEndian_inj (amount_lt_size a) (amount_lt_size b)
  rw [fee_key_eq, fee_key_eq, List.cons_lt_cons_iff, Bytes.append_lt_append_iff contracts,
    Bytes.append_lt_append_iff widths, amounts, equal, word_lt_iff, Subtype.ext_iff]
  simp

/-- Keys of fee rows compare as their contracts, then as their fees, then as their ids. -/
theorem compare_fee_key (c d : RawAddress) (a b : TokenAmount) (i j : UInt64) :
    compareOfLessAndEq (key (.fee c a i)) (key (.fee d b j)) =
      (compareOfLessAndEq c.val d.val).then ((compare a.val b.val).then (compare i j)) := by
  have starts : (feeStart c).length = (feeStart d).length := by
    simp [feeStart, c.property, d.property]
  have less : feeStart c < feeStart d ↔ c.val < d.val := by
    simp [feeStart]
  have equal : feeStart c = feeStart d ↔ c.val = d.val := by simp [feeStart]
  have lead : compareOfLessAndEq (feeStart c) (feeStart d) = compareOfLessAndEq c.val d.val := by
    simp only [compareOfLessAndEq, less, equal]
  rw [key, key, List.append_assoc, List.append_assoc, Bytes.compare_append starts, lead,
    Bytes.compare_append (by simp), compare_word,
    Bytes.compare_bigEndian (amount_lt_size a) (amount_lt_size b)]

theorem length_fee_key (contract : RawAddress) (amount : TokenAmount) (id : UInt64) :
    (key (.fee contract amount id)).length = 61 := by
  simp [fee_key_eq, contract.property, length_word]

/-- A fee row's key names its contract and its transfer. -/
theorem feeKey?_key (contract : RawAddress) (amount : TokenAmount) (id : UInt64) :
    feeKey? (key (.fee contract amount id)) = .ok (contract, id) := by
  have shape : (key (.fee contract amount id)).length = 61 ∧
      (key (.fee contract amount id)).head? = some 0x02 :=
    ⟨length_fee_key contract amount id, head?_key _⟩
  have named : ((key (.fee contract amount id)).drop 1).take 20 = contract.val := by
    simp [fee_key_eq, contract.property]
  have tail : (key (.fee contract amount id)).drop 53 = word id := by
    simp [fee_key_eq, List.drop_append, contract.property]
  rw [feeKey?, dif_pos shape]
  simp only [named, tail, ofNat_toNat_word]

/-- Eight bytes are the word of their number. -/
theorem word_ofNat_toNat {b : Bytes} (eight : b.length = 8) :
    word (UInt64.ofNat (Bytes.toNat b)) = b := by
  have bound := Bytes.toNat_lt b
  have digits := Bytes.bigEndian_toNat b
  rw [eight] at bound digits
  rw [word, UInt64.toNat_ofNat_of_lt' bound, digits]

/-- A key that is read as a fee row's is one. -/
theorem exists_of_feeKey? {k : Bytes} {contract : RawAddress} {id : UInt64}
    (read : feeKey? k = .ok (contract, id)) : ∃ amount, k = key (.fee contract amount id) := by
  rw [feeKey?] at read
  split at read
  next shape =>
    obtain ⟨length, head⟩ := shape
    obtain ⟨rfl, rfl⟩ := Prod.mk.inj (Except.ok.inj read)
    obtain ⟨lead, rest, rfl⟩ := List.exists_cons_of_ne_nil (List.ne_nil_of_length_eq_add_one length)
    obtain rfl := Option.some.inj head
    rw [List.length_cons] at length
    -- the fee is what stands between the contract and the id
    have width : ((rest.drop 20).take 32).length = 32 := by
      rw [List.length_take, List.length_drop]
      omega
    have bound := Bytes.toNat_lt ((rest.drop 20).take 32)
    have digits := Bytes.bigEndian_toNat ((rest.drop 20).take 32)
    rw [width] at bound digits
    have tail : (rest.drop 52).length = 8 := by
      rw [List.length_drop]
      omega
    have back : (rest.drop 20).drop 32 = rest.drop 52 := List.drop_drop
    refine ⟨⟨Bytes.toNat ((rest.drop 20).take 32), bound⟩, ?_⟩
    rw [fee_key_eq]
    simp only [List.drop_succ_cons, List.drop_zero]
    rw [digits, word_ofNat_toNat tail, ← back, List.take_append_drop, List.take_append_drop]
  next => cases read

/-- Exactly the keys of fee rows are read, as their contract and their transfer. -/
theorem feeKey?_eq_ok {k : Bytes} {contract : RawAddress} {id : UInt64} :
    feeKey? k = .ok (contract, id) ↔ ∃ amount, k = key (.fee contract amount id) := by
  constructor
  · exact exists_of_feeKey?
  · rintro ⟨amount, rfl⟩
    exact feeKey?_key contract amount id

/-! ## Every cell has a place of its own -/

theorem key_injective : Function.Injective key := by
  intro c d same
  -- the first bytes leave one kind of cell on both sides, but for two that share theirs
  have families : c.family = d.family := by
    have heads := congrArg List.head? same
    rwa [head?_key, head?_key, Option.some.injEq] at heads
  have texts : utf8 "config" ≠ utf8 "contract_info" := by decide
  cases c <;> cases d <;> simp [family] at families <;> try rfl
  case transfer.transfer i j => rw [word_injective (List.cons.inj same).2]
  case fee.fee c a i d b j =>
    rw [fee_key_eq, fee_key_eq] at same
    obtain ⟨contracts, rest⟩ :=
      List.append_inj (List.cons.inj same).2 (by rw [c.property, d.property])
    obtain ⟨amounts, ids⟩ := List.append_inj rest (by simp)
    have fees := (Bytes.bigEndian_inj (amount_lt_size a) (amount_lt_size b)).mp amounts
    rw [Subtype.ext contracts, Amount.ext fees, word_injective ids]
  case batch.batch m n => rw [word_injective (List.cons.inj same).2]
  case openBatch.openBatch c d => rw [Subtype.ext (List.cons.inj same).2]
  case locked.locked d e => rw [utf8_injective (List.append_cancel_left same)]
  case config.release => exact absurd same texts
  case release.config => exact absurd same.symm texts

@[simp] theorem key_inj {c d : Cell} : c.key = d.key ↔ c = d :=
  key_injective.eq_iff

/-! ## Scans -/

/-- The keys from a byte up to the next are those that start with it. -/
theorem mem_family_range {b : UInt8} (room : b ≠ 0xff) {k : Bytes} :
    [b] ≤ k ∧ k < [b + 1] ↔ k.head? = some b := by
  have range := Bytes.prefix_iff_range (p := [b]) (k := k) ⟨b, by simp, room⟩
  rw [Bytes.rangeEnd, Bytes.rangeEnd, if_neg room] at range
  rw [← range]
  cases k with
  | nil => simp
  | cons x k => simp [List.cons_prefix_cons, eq_comm]

/-- A scan of one contract's fee rows meets the keys that start as they do. -/
theorem mem_feeStart_range {contract : RawAddress} {k : Bytes} :
    feeStart contract ≤ k ∧ k < Bytes.rangeEnd (feeStart contract) ↔ feeStart contract <+: k :=
  (Bytes.prefix_iff_range ⟨0x02, by simp [feeStart], by decide⟩).symm

theorem feeStart_lt_rangeEnd (contract : RawAddress) :
    feeStart contract < Bytes.rangeEnd (feeStart contract) :=
  (mem_feeStart_range.mpr (List.prefix_refl _)).2

/-- A cell's key starts with the byte of its family. -/
theorem prefix_key_iff {b : UInt8} {c : Cell} : [b] <+: c.key ↔ c.family = b := by
  rw [← Option.some_inj, ← head?_key]
  cases c.key with
  | nil => simp
  | cons x k => simp [List.cons_prefix_cons, eq_comm]

/-- Among the cells, only the contract's own fee rows start as its fee rows do. -/
theorem feeStart_prefix_key_iff {contract : RawAddress} {c : Cell} :
    feeStart contract <+: c.key ↔ ∃ amount id, c = .fee contract amount id := by
  constructor
  · intro start
    -- only fee rows have the first byte of fee rows
    have lead : c.family = 0x02 := by
      obtain ⟨rest, shape⟩ := start
      have heads := congrArg List.head? shape
      rw [head?_key] at heads
      exact (Option.some.inj heads).symm
    cases c <;> simp [family] at lead
    case fee d a i =>
      rw [fee_key_eq, feeStart, List.cons_prefix_cons] at start
      have front := List.prefix_of_prefix_length_le start.2 (List.prefix_append d.val _)
        (by rw [contract.property, d.property])
      have same := front.eq_of_length (by rw [contract.property, d.property])
      exact ⟨a, i, by rw [Subtype.ext same]⟩
  · rintro ⟨amount, id, rfl⟩
    rw [key, List.append_assoc]
    exact List.prefix_append _ _

/-- The rows of a contract end where those of the later contracts begin. -/
theorem fee_key_lt_rangeEnd_iff {c d : RawAddress} {a : TokenAmount} {i : UInt64} :
    key (.fee c a i) < Bytes.rangeEnd (feeStart d) ↔ ¬ d.val < c.val := by
  -- a contract's own rows are in its range
  have own (a : TokenAmount) (i : UInt64) :
      feeStart d ≤ key (.fee d a i) ∧ key (.fee d a i) < Bytes.rangeEnd (feeStart d) :=
    mem_feeStart_range.mpr (feeStart_prefix_key_iff.mpr ⟨a, i, rfl⟩)
  constructor
  · intro below later
    have above : key (.fee d a i) < key (.fee c a i) := fee_key_lt_iff.mpr (.inl later)
    have from_start : feeStart d ≤ key (.fee c a i) :=
      List.le_trans (own a i).1 (List.le_of_lt above)
    obtain ⟨_, _, same⟩ := feeStart_prefix_key_iff.mp (mem_feeStart_range.mp ⟨from_start, below⟩)
    rw [(Cell.fee.inj same).1] at later
    exact List.lt_irrefl _ later
  · intro not_later
    rcases Std.lt_trichotomy c.val d.val with lower | same | later
    · have below : key (.fee c a i) < key (.fee d a i) := fee_key_lt_iff.mpr (.inl lower)
      exact List.lt_trans below (own a i).2
    · rw [Subtype.ext same]
      exact (own a i).2
    · exact absurd later not_later

end Cell

end BridgePool
