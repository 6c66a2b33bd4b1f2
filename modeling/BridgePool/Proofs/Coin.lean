import BridgePool.Escrow
import Mathlib.Algebra.GroupWithZero.Nat
import Mathlib.Algebra.Order.BigOperators.Group.List

/-!
# Lists of coins

What coins come to in a denom (`Coin.total`), and what the first of them in a denom is worth
(`Coin.first`). A coin that is taken out of others leaves that much less of either
(`Coin.total_takeOut`, `Coin.first_takeOut`).
-/

namespace BridgePool.Coin

/-- What coins come to in a denom. -/
def total (denom : String) (coins : List Coin) : Nat :=
  ((coins.filter (·.denom = denom)).map (·.amount.val)).sum

/-- What the first coin of a denom is worth. -/
def first (denom : String) (coins : List Coin) : Nat :=
  ((coins.find? (·.denom = denom)).map (·.amount.val)).getD 0

variable {denom : String} {coins : List Coin}

theorem total_nil : total denom [] = 0 := rfl

theorem total_cons (coin : Coin) :
    total denom (coin :: coins) =
      (if coin.denom = denom then coin.amount.val else 0) + total denom coins := by
  simp only [total, List.filter_cons, decide_eq_true_eq]
  split
  next => simp
  next => simp

theorem total_singleton (coin : Coin) :
    total denom [coin] = if coin.denom = denom then coin.amount.val else 0 := by
  rw [total_cons, total_nil, Nat.add_zero]

theorem total_append (front back : List Coin) :
    total denom (front ++ back) = total denom front + total denom back := by
  rw [total, List.filter_append, List.map_append, List.sum_append, total, total]

/-- Coins come to nothing in a denom when those of the denom are empty. -/
theorem total_eq_zero :
    total denom coins = 0 ↔ ∀ coin ∈ coins, coin.denom = denom → coin.amount = .zero := by
  simp only [total, List.sum_eq_zero_iff_forall_eq_nat, List.forall_mem_map, List.mem_filter,
    decide_eq_true_eq, and_imp, Amount.ext_iff, Amount.val_zero]

/-- Empty coins come to nothing. -/
theorem total_of_empty (empty : ∀ coin ∈ coins, coin.amount = .zero) : total denom coins = 0 :=
  total_eq_zero.mpr fun coin mem _ => empty coin mem

/-- Coins that come to nothing in every denom are empty. -/
theorem empty_iff :
    (∀ coin ∈ coins, coin.amount = .zero) ↔ ∀ denom, total denom coins = 0 := by
  constructor
  · exact fun empty _ => total_of_empty empty
  · exact fun nothing coin mem => total_eq_zero.mp (nothing coin.denom) coin mem rfl

theorem first_cons (coin : Coin) : first denom (coin :: coins) =
    if coin.denom = denom then coin.amount.val else first denom coins := by
  split
  next own => simp [first, own]
  next other => simp [first, other]

/-- A coin is taken out of the first one of its denom, and the rest stays as it is. -/
theorem takeOut_cons {c coin : Coin} {left : List Coin}
    (taken : Escrow.takeOut coin (c :: coins) = .ok left) :
    (c.denom = coin.denom ∧ ∃ amount : CoinAmount, c.amount.val = amount.val + coin.amount.val ∧
      left = ⟨c.denom, amount⟩ :: coins) ∨
    c.denom ≠ coin.denom ∧ ∃ rest, Escrow.takeOut coin coins = .ok rest ∧ left = c :: rest := by
  rw [Escrow.takeOut] at taken
  split at taken
  next own =>
    split at taken
    next amount split =>
      exact .inl ⟨own, amount, Amount.sub?_eq_some.mp split, (Except.ok.inj taken).symm⟩
    next => cases taken
  next other =>
    cases rested : Escrow.takeOut coin coins with
    | error got =>
        rw [rested] at taken
        cases taken
    | ok rest =>
        rw [rested] at taken
        exact .inr ⟨other, rest, rfl, (Except.ok.inj taken).symm⟩

variable {coin : Coin} {left : List Coin}

/-- What is taken out of coins and what is left come to what there was. -/
theorem total_takeOut (taken : Escrow.takeOut coin coins = .ok left) :
    total denom coins = total denom [coin] + total denom left := by
  induction coins generalizing left with
  | nil => cases taken
  | cons c coins ih =>
      rcases takeOut_cons taken with ⟨own, amount, split, rfl⟩ | ⟨_, rest, others, rfl⟩
      · simp only [total_cons, total_nil, own]
        split <;> omega
      · have below := ih others
        rw [total_cons c, total_cons c]
        omega

/-- So much less is the first coin of its denom worth. -/
theorem first_takeOut (taken : Escrow.takeOut coin coins = .ok left) :
    first denom coins = total denom [coin] + first denom left := by
  induction coins generalizing left with
  | nil => cases taken
  | cons c coins ih =>
      rcases takeOut_cons taken with ⟨own, amount, split, rfl⟩ | ⟨other, rest, others, rfl⟩
      · simp only [total_singleton, first_cons, own]
        split <;> omega
      · have below := ih others
        rw [first_cons, first_cons]
        split
        next same =>
          rw [total_singleton, if_neg (same ▸ other.symm)]
          omega
        next => exact below

end BridgePool.Coin
