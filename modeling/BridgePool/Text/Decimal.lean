/-!
# Decimal text of natural numbers

* `Decimal.text n` — the shortest decimal spelling of `n`;
* `Decimal.value?` — the number a non-empty run of digits stands for, leading zeros allowed;
* `Decimal.canonical?` — the same for the shortest spelling only;
* `Decimal.signed?` — `value?` after at most one plus sign.

Each reader gives back what `text` wrote (`value?_digits`, `canonical?_digits`,
`signed?_digits`).
-/

namespace BridgePool.Decimal

/-- The decimal digits of `n`, highest first, without leading zeros. -/
def digits (n : Nat) : List Char :=
  Nat.toDigits 10 n

/-- The shortest decimal spelling of `n`. -/
def text (n : Nat) : String :=
  String.ofList (digits n)

/-- The number a run of digits stands for. Refuses the empty run and any other character. -/
def value? (cs : List Char) : Option Nat :=
  if cs ≠ [] ∧ cs.all Char.isDigit then some (Nat.ofDigitChars 10 cs 0) else none

/-- The number whose shortest spelling is `cs`: a leading zero is refused unless it stands
alone. -/
def canonical? (cs : List Char) : Option Nat :=
  if cs.head? = some '0' ∧ cs ≠ ['0'] then none else value? cs

/-- The number a run of digits stands for, after at most one plus sign. -/
def signed? : List Char → Option Nat
  | '+' :: cs => value? cs
  | cs => value? cs

theorem digits_ne_nil (n : Nat) : digits n ≠ [] :=
  Nat.toDigits_ne_nil

theorem isDigit_of_mem_digits {n : Nat} {c : Char} (h : c ∈ digits n) : c.isDigit = true :=
  Nat.isDigit_of_mem_toDigits (by decide) (by decide) h

theorem value?_digits (n : Nat) : value? (digits n) = some n := by
  have all : (digits n).all Char.isDigit = true :=
    List.all_eq_true.mpr fun _ h => isDigit_of_mem_digits h
  rw [value?, if_pos ⟨digits_ne_nil n, all⟩, digits,
    Nat.ofDigitChars_toDigits (by decide) (by decide)]

/-- Only zero is spelled with a zero in front. -/
theorem head?_digits {n : Nat} (h : n ≠ 0) : (digits n).head? ≠ some '0' := by
  induction n using Nat.strongRecOn with
  | ind n ih =>
    by_cases small : n < 10
    · have spelled : ∀ m, m < 10 → m ≠ 0 → [m.digitChar].head? ≠ some '0' := by decide
      rw [digits, Nat.toDigits_of_lt_base small]
      exact spelled n small h
    · have lower := ih (n / 10) (by omega) (by omega)
      rw [digits, Nat.toDigits_of_base_le (by decide) (by omega)]
      rw [List.head?_append]
      cases head : (Nat.toDigits 10 (n / 10)).head? with
      | none => exact absurd (List.head?_eq_none_iff.mp head) Nat.toDigits_ne_nil
      | some c => rw [digits, head] at lower; exact lower

theorem canonical?_digits (n : Nat) : canonical? (digits n) = some n := by
  by_cases h : n = 0
  · subst h; decide
  · rw [canonical?, if_neg (fun zero => head?_digits h zero.1), value?_digits]

theorem signed?_digits (n : Nat) : signed? (digits n) = some n := by
  rw [signed?, value?_digits]
  intro cs h
  have plus : Char.isDigit '+' = true := isDigit_of_mem_digits (n := n) (by simp [h])
  exact absurd plus (by decide)

end BridgePool.Decimal
