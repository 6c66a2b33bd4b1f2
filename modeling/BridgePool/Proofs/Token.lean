import BridgePool.Proofs.Book.Deed

/-!
# Sums and coins of token amounts

When adding two token amounts and asking for a coin succeed, and with what. The coin of a transfer
(`Transfer.coin`) is what `Pool.heldCoin` answers wherever a coin can hold what it is worth.
-/

namespace BridgePool

namespace Token

theorem add_eq_ok {t u sum : Token} :
    t.add u = .ok sum ↔ t.contract.Same u.contract ∧
      sum.amount.val = t.amount.val + u.amount.val ∧ sum.contract = t.contract := by
  rw [add]
  split
  next same =>
    cases added : t.amount.add? u.amount with
    | none =>
        rw [Amount.add?, Amount.ofNat?_eq_none] at added
        have room := sum.amount.isLt
        simp only [reduceCtorEq, same, true_and, false_iff]
        omega
    | some amount =>
        have exact_sum := Amount.add?_eq_some.mp added
        simp [Token.ext_iff, Amount.ext_iff, same, exact_sum, eq_comm]
  next apart => simp [apart]

theorem coin_eq_ok {t : Token} {c : Coin} :
    t.coin = .ok c ↔ c.denom = t.denom ∧ c.amount.val = t.amount.val := by
  rw [coin]
  cases narrowed : t.amount.narrow? 128 with
  | none =>
      rw [Amount.narrow?, Amount.ofNat?_eq_none] at narrowed
      have room := c.amount.isLt
      simp only [reduceCtorEq, false_iff]
      omega
  | some amount =>
      have same := Amount.narrow?_eq_some.mp narrowed
      simp [Coin.ext_iff, Amount.ext_iff, same, eq_comm]

end Token

namespace Transfer

variable {t : Transfer} {c : Coin}

theorem coin_amount (fits : t.worth < Nat.pow 2 128) : t.coin.amount.val = t.worth := by
  rw [coin, Amount.ofNat?, dif_pos fits]
  rfl

theorem eq_coin_iff :
    c.denom = t.token.denom ∧ c.amount.val = t.worth ↔ t.worth < Nat.pow 2 128 ∧ c = t.coin := by
  constructor
  · rintro ⟨denom, amount⟩
    have fits : t.worth < Nat.pow 2 128 := amount ▸ c.amount.isLt
    exact ⟨fits, Coin.ext denom (Amount.ext (amount.trans (coin_amount fits).symm))⟩
  · rintro ⟨fits, rfl⟩
    exact ⟨rfl, coin_amount fits⟩

end Transfer

namespace Pool

theorem heldCoin_eq_ok {t : Transfer} {c : Coin} (spelled : t.fee.contract = t.token.contract) :
    heldCoin t = .ok c ↔ t.worth < Nat.pow 2 128 ∧ c = t.coin := by
  have same : t.token.contract.Same t.fee.contract := by rw [Address.Same, spelled]
  rw [← Transfer.eq_coin_iff, heldCoin, Transfer.total]
  cases added : t.token.add t.fee with
  | error fault =>
      simp only [bind, Except.bind, reduceCtorEq, false_iff]
      rintro ⟨_, amount⟩
      have room : t.worth < Nat.pow 2 256 := by
        have fits : t.worth < Nat.pow 2 128 := amount ▸ c.amount.isLt
        exact Nat.lt_trans fits (by decide)
      have sum := Token.add_eq_ok.mpr
        (⟨same, rfl, rfl⟩ : _ ∧ (⟨⟨t.worth, room⟩, t.token.contract⟩ : Token).amount.val = _ ∧ _)
      rw [added] at sum
      cases sum
  | ok sum =>
      obtain ⟨_, amount, contract⟩ := Token.add_eq_ok.mp added
      show sum.coin = .ok c ↔ _
      rw [Token.coin_eq_ok, Token.denom, Token.denom, contract, amount, Transfer.worth]

end Pool

end BridgePool
