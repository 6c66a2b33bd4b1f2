import BridgePool.Proofs.Address
import BridgePool.Proofs.Token

/-!
# Denoms, tokens and coins

A voucher denom is the mark with a spelling behind it (`Denom.Vouches`), so denoms and contracts
stand for each other, spelling included. A token amount is narrowed by looking at its thirty-two
bytes: the front ones have to be zero, and the last ones are the number (`Amount.low?`), which is the
same number or none (`Amount.low?_eq`). Sums of tokens of one contract succeed together in whatever
order they are formed (`Token.conversionsExact`).
-/

namespace BridgePool

/-! ## Denoms -/

/-- The texts of `gravity` and the spelling of an address. -/
def Denom.Vouches (denom : String) : Prop :=
  ∃ text, Address.Spells text ∧ denom = "gravity" ++ text

/-- The first thing that is wrong with a text that is no voucher denom. -/
inductive DenomFault.Explains (denom : String) : DenomFault → Prop where
  | foreignPrefix (other : ¬ "gravity".toList <+: denom.toList) :
      Explains denom (.foreignPrefix denom)
  | address {text : String} {fault : AddressFault} (marked : denom = "gravity" ++ text)
      (wrong : fault.Explains text) : Explains denom (.address fault)

namespace Denom

variable {denom denom' text : String} {a b : Address}

/-- What stands behind the mark. -/
def behind (denom : String) : String :=
  String.ofList (denom.toList.drop mark.length)

theorem behind_append : behind ("gravity" ++ text) = text := by
  rw [behind, String.toList_append]
  exact String.ofList_toList

theorem contract_append :
    contract ("gravity" ++ text) = (Address.parse text).mapError .address := by
  have front : ("gravity" ++ text).toList.take mark.length = mark := by
    rw [String.toList_append]
    rfl
  rw [contract, if_pos front, ← behind, behind_append]

theorem contract_of_foreign (other : ¬ "gravity".toList <+: denom.toList) :
    contract denom = .error (.foreignPrefix denom) :=
  if_neg fun front => other (List.prefix_iff_eq_take.mpr front.symm)

theorem ofContract_eq : ofContract a = "gravity" ++ a.spelling := by
  rw [← String.toList_inj, ofContract, String.toList_ofList, String.toList_append]
  rfl

/-- A text is a voucher denom, or something is wrong with it. -/
theorem vouches_or_explains (denom : String) :
    Vouches denom ∨ ∃ fault : DenomFault, fault.Explains denom := by
  by_cases marked : "gravity".toList <+: denom.toList
  · obtain ⟨rest, whole⟩ := marked
    have split : denom = "gravity" ++ String.ofList rest := by
      rw [← String.toList_inj, String.toList_append, ← whole, String.toList_ofList (l := rest)]
    rcases Address.spells_or_explains (String.ofList rest) with spelled | ⟨fault, wrong⟩
    · exact .inl ⟨_, spelled, split⟩
    · exact .inr ⟨_, .address split wrong⟩
  · exact .inr ⟨_, .foreignPrefix marked⟩

theorem exists_contract_iff : (∃ a, contract denom = .ok a) ↔ Vouches denom := by
  simp only [contract_eq_ok, ofContract_eq]
  constructor
  · rintro ⟨a, rfl⟩
    exact ⟨_, Address.exists_parse_iff.mp ⟨a, Address.parse_spelling a⟩, rfl⟩
  · rintro ⟨text, spelled, rfl⟩
    obtain ⟨a, parsed⟩ := Address.exists_parse_iff.mpr spelled
    exact ⟨a, by rw [Address.parse_eq_ok.mp parsed]⟩

/-- What is wrong with a text is why it is refused. -/
theorem contract_of_explains {fault : DenomFault} (wrong : fault.Explains denom) :
    contract denom = .error fault := by
  cases wrong with
  | foreignPrefix other => exact contract_of_foreign other
  | address marked wrong =>
      rw [marked, contract_append, Address.parse_of_explains wrong]
      rfl

theorem contract_eq_error {fault : DenomFault} :
    contract denom = .error fault ↔ fault.Explains denom :=
  eq_error_iff ((vouches_or_explains denom).imp_left exists_contract_iff.mpr) contract_of_explains

theorem behind_of_contract (found : contract denom = .ok a) : behind denom = a.spelling := by
  obtain rfl := contract_eq_ok.mp found
  rw [ofContract_eq, behind_append]

/-- Every voucher denom has the one length. -/
theorem utf8ByteSize_of_contract (found : contract denom = .ok a) : denom.utf8ByteSize = 49 := by
  obtain rfl := contract_eq_ok.mp found
  have hex (c : Char) (mem : c ∈ a.digits) : c ∈ Hex.alphabet :=
    Hex.isDigit_iff.mp (a.hex_digits c mem)
  have spelling : a.spelling.utf8ByteSize = a.digits.length + 2 :=
    Address.utf8ByteSize_of_marked String.toList_ofList hex
  have mark : "gravity".utf8ByteSize = 7 := by decide
  rw [ofContract_eq, String.utf8ByteSize_append, spelling, a.length_digits, mark]

theorem same_iff_behind (found : contract denom = .ok a) (found' : contract denom' = .ok b) :
    a.Same b ↔ (behind denom).toLower = (behind denom').toLower := by
  rw [behind_of_contract found, behind_of_contract found']
  exact Address.same_iff

end Denom

/-! ## Narrow amounts -/

namespace Bytes

/-- The last digits of a number are those of the number, and the others are those of what it is
without them. -/
theorem bigEndian_add (front width n : Nat) :
    bigEndian (front + width) n = bigEndian front (n >>> (8 * width)) ++ bigEndian width n := by
  induction front with
  | zero => rw [Nat.zero_add]; rfl
  | succ front ih =>
      have shifts : 8 * width + 8 * front = 8 * (front + width) := by omega
      rw [Nat.add_right_comm, bigEndian, bigEndian, ih, ← Nat.shiftRight_add, shifts]
      rfl

/-- Bytes write nothing when each is zero. -/
theorem toNat_eq_zero_iff {b : Bytes} : toNat b = 0 ↔ ∀ x ∈ b, x = 0 := by
  induction b with
  | nil => simp [toNat]
  | cons x b ih =>
      have power : 0 < 256 ^ b.length := by positivity
      have digit : x.toNat = 0 ↔ x = 0 := UInt8.toNat_inj (b := 0)
      rw [toNat_cons, List.forall_mem_cons, ← ih, ← digit]
      constructor
      · intro none
        have := Nat.eq_zero_of_add_eq_zero none
        simpa [power.ne'] using this
      · rintro ⟨first, rest⟩
        rw [first, rest, Nat.zero_mul]

end Bytes

namespace Amount

variable {width : Nat}

/-- The number that the last `width` of the thirty-two bytes write, if the others are zero. -/
def low? (a : TokenAmount) (width : Nat) : Option Nat :=
  let bytes := Bytes.bigEndian 32 a.val
  if (bytes.take (32 - width)).any (· ≠ 0) then none
  else some (Bytes.toNat (bytes.drop (32 - width)))

/-- What the last bytes write is the amount, unless it does not fit them. -/
theorem low?_eq (a : TokenAmount) (narrow : width ≤ 32) :
    a.low? width = if a.val < 256 ^ width then some a.val else none := by
  have bytes : Bytes.bigEndian 32 a.val = Bytes.bigEndian (32 - width) (a.val >>> (8 * width)) ++
      Bytes.bigEndian width a.val := by
    rw [← Bytes.bigEndian_add, Nat.sub_add_cancel narrow]
  have power : 0 < 256 ^ width := by positivity
  have room : a.val < 256 ^ width * 256 ^ (32 - width) := by
    rw [← pow_add, Nat.add_sub_cancel' narrow]
    exact a.isLt
  have shift : a.val >>> (8 * width) = a.val / 256 ^ width := by
    rw [Nat.shiftRight_eq_div_pow, pow_mul]
    rfl
  -- the bytes in front write what is left of the amount when the last ones are cut off
  have front : (∀ x ∈ Bytes.bigEndian (32 - width) (a.val >>> (8 * width)), x = 0) ↔
      a.val < 256 ^ width := by
    rw [← Bytes.toNat_eq_zero_iff, Bytes.toNat_bigEndian, shift,
      Nat.mod_eq_of_lt (Nat.div_lt_of_lt_mul room), Nat.div_eq_zero_iff]
    simp
  simp only [low?, bytes, List.take_left' (Bytes.length_bigEndian _ _),
    List.drop_left' (Bytes.length_bigEndian _ _), List.any_eq_true, decide_eq_true_eq]
  by_cases fits : a.val < 256 ^ width
  · have zero := front.mpr fits
    rw [if_neg (by simpa using zero), if_pos fits, Bytes.toNat_bigEndian, Nat.mod_eq_of_lt fits]
  · have stray := mt front.mp fits
    rw [if_pos (by simpa using stray), if_neg fits]

end Amount

/-! ## Coins and words -/

namespace Token

variable {a b c s : Token}

/-- Coins hold the amounts of sixteen bytes. -/
theorem coin_low? (t : Token) :
    t.coin.toOption.map (fun k => k.amount.val) = t.amount.low? 16 := by
  have power : 256 ^ 16 = Nat.pow 2 128 := rfl
  rw [Amount.low?_eq _ (by decide), power, coin, Amount.narrow?, Amount.ofNat?]
  by_cases fits : t.amount.val < Nat.pow 2 128
  · rw [dif_pos fits, if_pos fits]
    rfl
  · rw [dif_neg fits, if_neg fits]
    rfl

/-- Machine words hold the amounts of eight bytes. -/
theorem word_low? (t : Token) : t.word.toOption.map UInt64.toNat = t.amount.low? 8 := by
  have power : 256 ^ 8 = UInt64.size := rfl
  rw [Amount.low?_eq _ (by decide), power, word]
  split
  next fits => exact congrArg some (UInt64.toNat_ofNat_of_lt' fits)
  next => rfl

theorem exists_coin_iff {t : Token} : (∃ k, t.coin = .ok k) ↔ t.amount.val < 2 ^ 128 := by
  simp only [coin_eq_ok]
  constructor
  · rintro ⟨k, -, amount⟩
    exact amount ▸ k.amount.isLt
  · intro fits
    exact ⟨⟨t.denom, t.amount.val, fits⟩, rfl, rfl⟩

theorem exists_ofCoin_iff {k : Coin} : (∃ t, ofCoin k = .ok t) ↔ Denom.Vouches k.denom := by
  rw [← Denom.exists_contract_iff]
  simp only [ofCoin_eq_ok, Denom.contract_eq_ok]
  constructor
  · rintro ⟨t, -, denom⟩
    exact ⟨t.contract, denom⟩
  · rintro ⟨a, denom⟩
    exact ⟨⟨k.amount.widen (by decide), a⟩, rfl, denom⟩

theorem word_eq_ok {t : Token} {n : UInt64} : t.word = .ok n ↔ n.toNat = t.amount.val := by
  rw [word]
  split
  next fits =>
    rw [Except.ok.injEq, ← UInt64.toNat_inj, UInt64.toNat_ofNat_of_lt' fits]
    exact eq_comm
  next large =>
    have room := n.toNat_lt_size
    simp only [reduceCtorEq, false_iff]
    omega

theorem exists_word_iff {t : Token} : (∃ n, t.word = .ok n) ↔ t.amount.val < 2 ^ 64 := by
  simp only [word_eq_ok]
  constructor
  · rintro ⟨n, amount⟩
    exact amount ▸ n.toNat_lt
  · intro fits
    exact ⟨_, UInt64.toNat_ofNat_of_lt' fits⟩

/-! ## Sums -/

theorem exists_add_iff :
    (∃ s, a.add b = .ok s) ↔
      a.contract.Same b.contract ∧ a.amount.val + b.amount.val < 2 ^ 256 := by
  simp only [add_eq_ok]
  constructor
  · rintro ⟨s, same, amount, -⟩
    exact ⟨same, amount ▸ s.amount.isLt⟩
  · rintro ⟨same, fits⟩
    exact ⟨⟨⟨_, fits⟩, a.contract⟩, same, rfl, rfl⟩

theorem amount_add_iff {n : TokenAmount} :
    (∃ s, a.add b = .ok s ∧ s.amount = n) ↔
      a.contract.Same b.contract ∧ n.val = a.amount.val + b.amount.val := by
  simp only [add_eq_ok]
  constructor
  · rintro ⟨s, ⟨same, amount, -⟩, rfl⟩
    exact ⟨same, amount⟩
  · rintro ⟨same, amount⟩
    exact ⟨⟨n, a.contract⟩, ⟨same, amount, rfl⟩, rfl⟩

theorem add_comm_amount {n : TokenAmount} :
    (∃ s, a.add b = .ok s ∧ s.amount = n) ↔ ∃ s, b.add a = .ok s ∧ s.amount = n := by
  rw [amount_add_iff, amount_add_iff, Nat.add_comm, Address.Same, Address.Same, eq_comm]

/-- One answer after the other is there when both are. -/
theorem bind_eq_ok {α β ε : Type} {x : Except ε α} {f : α → Except ε β} {y : β} :
    (x >>= f) = .ok y ↔ ∃ a, x = .ok a ∧ f a = .ok y := by
  cases x <;> simp [bind, Except.bind]

/-- A third amount on top of a sum makes the sum of the three. -/
theorem add_bind_eq_ok : (a.add b >>= fun t => t.add c) = .ok s ↔
    (a.contract.Same b.contract ∧ a.contract.Same c.contract) ∧
      s.amount.val = a.amount.val + b.amount.val + c.amount.val ∧ s.contract = a.contract := by
  simp only [bind_eq_ok, add_eq_ok]
  constructor
  · rintro ⟨t, ⟨same, first, contract⟩, next, sum, contract'⟩
    rw [contract] at next contract'
    exact ⟨⟨same, next⟩, by omega, contract'⟩
  · rintro ⟨⟨same, next⟩, sum, contract⟩
    have fits : a.amount.val + b.amount.val < Nat.pow 2 256 := by
      have room := s.amount.isLt
      omega
    exact ⟨⟨⟨_, fits⟩, a.contract⟩, ⟨same, rfl, rfl⟩, next, sum, contract⟩

/-- An amount on top of the sum of two others makes the sum of the three. -/
theorem bind_add_eq_ok : (b.add c >>= fun t => a.add t) = .ok s ↔
    (a.contract.Same b.contract ∧ a.contract.Same c.contract) ∧
      s.amount.val = a.amount.val + b.amount.val + c.amount.val ∧ s.contract = a.contract := by
  simp only [bind_eq_ok, add_eq_ok]
  constructor
  · rintro ⟨t, ⟨same, first, contract⟩, next, sum, contract'⟩
    rw [contract] at next
    exact ⟨⟨next, next.trans same⟩, by omega, contract'⟩
  · rintro ⟨⟨same, next⟩, sum, contract⟩
    have fits : b.amount.val + c.amount.val < Nat.pow 2 256 := by
      have room := s.amount.isLt
      omega
    exact ⟨⟨⟨_, fits⟩, b.contract⟩, ⟨same.symm.trans next, rfl, rfl⟩, same,
      sum.trans (Nat.add_assoc _ _ _), contract⟩

end Token

/-! ## Exact conversions -/

/-- Which denoms, coins, words and sums there are, and that no conversion between them loses
anything. -/
structure Token.ConversionsExact : Prop where
  /-- A denom has a contract when it is `gravity` and the spelling of an address. -/
  contract_iff : ∀ denom, (∃ a, Denom.contract denom = .ok a) ↔ Denom.Vouches denom
  /-- Any other text is refused, for the first thing that is wrong with it. -/
  refused_iff : ∀ denom fault,
    Denom.contract denom = .error fault ↔ DenomFault.Explains denom fault
  /-- A denom is the denom of its contract, spelling included, and has the one length. -/
  denom_back : ∀ denom a, Denom.contract denom = .ok a →
    Denom.ofContract a = denom ∧ denom.utf8ByteSize = 49
  /-- A contract is the contract of its denom, spelling included. -/
  contract_back : ∀ a, Denom.contract (Denom.ofContract a) = .ok a
  /-- Denoms have the same contract when they agree behind the mark, but for the case. -/
  same_iff : ∀ denom denom' a b, Denom.contract denom = .ok a → Denom.contract denom' = .ok b →
    (a.Same b ↔ (Denom.behind denom).toLower = (Denom.behind denom').toLower)
  /-- A number of bytes holds an amount that is small enough, and no other. -/
  low : ∀ (a : TokenAmount) (width : Nat), width ≤ 32 →
    a.low? width = if a.val < 256 ^ width then some a.val else none
  /-- Coins and machine words hold what sixteen and eight bytes do. -/
  bytes : ∀ t : Token, t.coin.toOption.map (fun k => k.amount.val) = t.amount.low? 16 ∧
    t.word.toOption.map UInt64.toNat = t.amount.low? 8
  /-- A coin holds the amounts of 128 bits. -/
  coin_iff : ∀ t : Token, (∃ k, t.coin = .ok k) ↔ t.amount.val < 2 ^ 128
  /-- The token of its coin is the token again, spelling included. -/
  token_back : ∀ (t : Token) (k : Coin), t.coin = .ok k → Token.ofCoin k = .ok t
  /-- The coins with a token are those of a voucher denom. -/
  ofCoin_iff : ∀ k : Coin, (∃ t, Token.ofCoin k = .ok t) ↔ Denom.Vouches k.denom
  /-- The coin of its token is the coin again. -/
  coin_back : ∀ (k : Coin) (t : Token), Token.ofCoin k = .ok t → t.coin = .ok k
  /-- A machine word holds the amounts of 64 bits. -/
  word_iff : ∀ t : Token, (∃ n, t.word = .ok n) ↔ t.amount.val < 2 ^ 64
  /-- The machine word is the amount. -/
  word_eq : ∀ (t : Token) (n : UInt64), t.word = .ok n → n.toNat = t.amount.val
  /-- Amounts of one contract have a sum when 256 bits hold it. -/
  add_iff : ∀ a b : Token, (∃ s, a.add b = .ok s) ↔
    a.contract.Same b.contract ∧ a.amount.val + b.amount.val < 2 ^ 256
  /-- The sum is exact and has the spelling of the first. -/
  add_eq : ∀ a b s : Token, a.add b = .ok s →
    s.amount.val = a.amount.val + b.amount.val ∧ s.contract = a.contract
  /-- Either order gives the same amount. -/
  add_comm : ∀ (a b : Token) (n : TokenAmount),
    (∃ s, a.add b = .ok s ∧ s.amount = n) ↔ ∃ s, b.add a = .ok s ∧ s.amount = n
  /-- Three amounts have the same sum from the left as from the right. -/
  add_assoc : ∀ a b c s : Token,
    (a.add b >>= fun t => t.add c) = .ok s ↔ (b.add c >>= fun t => a.add t) = .ok s

/-- Denoms, contracts, tokens and coins stand for each other, and sums are those of the numbers. -/
theorem Token.conversionsExact : ConversionsExact where
  contract_iff _ := Denom.exists_contract_iff
  refused_iff _ _ := Denom.contract_eq_error
  denom_back _ _ found := ⟨Denom.contract_eq_ok.mp found, Denom.utf8ByteSize_of_contract found⟩
  contract_back := Denom.contract_ofContract
  same_iff _ _ _ _ := Denom.same_iff_behind
  low a _ narrow := a.low?_eq narrow
  bytes t := ⟨t.coin_low?, t.word_low?⟩
  coin_iff _ := exists_coin_iff
  token_back t k given := by
    obtain ⟨denom, amount⟩ := coin_eq_ok.mp given
    exact ofCoin_eq_ok.mpr ⟨amount.symm, denom.symm⟩
  ofCoin_iff _ := exists_ofCoin_iff
  coin_back k t taken := by
    obtain ⟨amount, denom⟩ := ofCoin_eq_ok.mp taken
    exact coin_eq_ok.mpr ⟨denom.symm, amount.symm⟩
  word_iff _ := exists_word_iff
  word_eq _ _ := word_eq_ok.mp
  add_iff _ _ := exists_add_iff
  add_eq _ _ _ added := (add_eq_ok.mp added).2
  add_comm _ _ _ := add_comm_amount
  add_assoc _ _ _ _ := by rw [add_bind_eq_ok, bind_add_eq_ok]

end BridgePool
