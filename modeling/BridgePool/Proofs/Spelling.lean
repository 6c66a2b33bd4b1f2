import BridgePool.Response
import BridgePool.Token

/-!
# Spellings are read back alone

A reader accepts the one text that its writer makes: `Address.parse` the spelling of the address,
`Denom.contract` the denom of the contract, `Token.ofCoin` the coin of that denom and amount. Two
numbers of one decimal text are the same (`spellWord_inj`).
-/

namespace BridgePool

theorem Address.parse_eq_ok {text : String} {a : Address} : parse text = .ok a ↔ a.spelling = text := by
  constructor
  · intro parsed
    rw [parse] at parsed
    split at parsed
    next => cases parsed
    next digits chars =>
      split at parsed
      next =>
        split at parsed
        next =>
          obtain rfl := Except.ok.inj parsed
          rw [spelling, ← chars, String.ofList_toList]
        next => cases parsed
      next => cases parsed
    next => cases parsed
  · rintro rfl
    exact parse_spelling a

theorem Denom.contract_eq_ok {denom : String} {a : Address} :
    contract denom = .ok a ↔ ofContract a = denom := by
  constructor
  · intro found
    rw [contract] at found
    split at found
    next front =>
      cases parsed : Address.parse (String.ofList (denom.toList.drop mark.length)) with
      | error fault => rw [parsed] at found; cases found
      | ok address =>
          rw [parsed] at found
          obtain rfl := Except.ok.inj found
          have back := Address.parse_eq_ok.mp parsed
          have whole := List.take_append_drop mark.length denom.toList
          rw [front] at whole
          rw [ofContract, back, String.toList_ofList, whole, String.ofList_toList]
    next => cases found
  · rintro rfl
    exact contract_ofContract a

theorem Token.ofCoin_eq_ok {c : Coin} {t : Token} :
    ofCoin c = .ok t ↔ t.amount.val = c.amount.val ∧ t.denom = c.denom := by
  rw [denom, ← Denom.contract_eq_ok, ofCoin]
  cases Denom.contract c.denom with
  | error fault => simp
  | ok contract => simp [Token.ext_iff, Amount.ext_iff, Amount.widen, eq_comm]

theorem Decimal.text_inj {m n : Nat} (same : text m = text n) : m = n := by
  have read := congrArg (fun t => value? t.toList) same
  simp only [text, String.toList_ofList, value?_digits, Option.some.injEq] at read
  exact read

theorem spellWord_inj {m n : UInt64} (same : spellWord m = spellWord n) : m = n :=
  UInt64.toNat_inj.mp (Decimal.text_inj same)

end BridgePool
