import BridgePool.Json.Printer
import BridgePool.Json.Quoted

/-!
# Quoted texts read back

What `Json.quote` writes between quotes, `Json.text?` reads as the same text, whatever characters
it holds and whatever follows (`Json.text?_quote`).

Every character is written in one of three ways (`Json.Escaped`), and each of the three is a step
of the readers.
-/

namespace BridgePool.Json

/-- The three ways in which a character is written between quotes. -/
inductive Escaped (c : Char) : List Char → Prop
  | plain : c ≠ '"' → c ≠ '\\' → isControl c = false → Escaped c [c]
  | short {x : Char} : x ≠ 'u' → shortEscape? x = some c → Escaped c ['\\', x]
  | unit {x y : Char} : x ≠ '"' → x ≠ '\\' → y ≠ '"' → y ≠ '\\' →
      unit? '0' '0' x y = some c.toNat → Escaped c ['\\', 'u', '0', '0', x, y]

theorem plainUnit?_toNat (c : Char) : plainUnit? c.toNat = some c := by
  have valid : c.toNat.isValidChar := c.valid
  rw [plainUnit?, dif_pos valid]
  rfl

theorem value?_digit_toUpper :
    ∀ n, n < 16 → Hex.value? (Hex.digit n).toUpper = some n := by decide

theorem digit_plain :
    ∀ n, n < 16 → (Hex.digit n).toUpper ≠ '"' ∧ (Hex.digit n).toUpper ≠ '\\' ∧
      Hex.digit n ≠ '"' ∧ Hex.digit n ≠ '\\' := by decide

theorem escaped_escape (c : Char) : Escaped c (escape c) := by
  -- two of the short escapes stand for characters that are known by number only
  have known : ∀ n (h : n.isValidChar), c.toNat = n → c = Char.ofNatAux n h := by
    rintro n h rfl
    rfl
  have zero : Hex.value? '0' = some 0 := by decide
  unfold escape
  split
  · subst c
    exact .short (by decide) (by decide)
  split
  · subst c
    exact .short (by decide) (by decide)
  split
  · rw [known 8 (by decide) ‹_›]
    exact .short (by decide) (by decide)
  split
  · subst c
    exact .short (by decide) (by decide)
  split
  · subst c
    exact .short (by decide) (by decide)
  split
  · rw [known 12 (by decide) ‹_›]
    exact .short (by decide) (by decide)
  split
  · subst c
    exact .short (by decide) (by decide)
  split
  next control =>
    -- a control character is below 32, so two of its four digits are zeros
    have small : c.toNat < 32 := by simpa [isControl] using control
    have high := digit_plain (c.toNat / 16) (by omega)
    have low := digit_plain (c.toNat % 16) (by omega)
    refine .unit high.2.2.1 high.2.2.2 low.1 low.2.1 ?_
    rw [unit?, zero, Hex.value?_digit _ (by omega), value?_digit_toUpper _ (by omega)]
    simp only [bind, Option.bind, pure, Option.some.injEq]
    omega
  next plain => exact .plain ‹_› ‹_› (by simpa using plain)

/-! ## The closing quote -/

theorem quotedBody_plain {c : Char} (quote : c ≠ '"') (backslash : c ≠ '\\') (rest : List Char) :
    quotedBody (c :: rest) = (quotedBody rest).map fun (body, r) => (c :: body, r) := by
  rw [quotedBody.eq_def]
  split <;> simp_all

theorem quotedBody_escape (c : Char) (rest : List Char) :
    quotedBody (escape c ++ rest) =
      (quotedBody rest).map fun (body, r) => (escape c ++ body, r) := by
  have written := escaped_escape c
  generalize escape c = e at written ⊢
  cases written with
  | plain quote backslash _ => exact quotedBody_plain quote backslash rest
  | short _ _ => simp [quotedBody]
  | unit xq xb yq yb _ =>
      simp [quotedBody, quotedBody_plain, xq, xb, yq, yb, Option.map_map, Function.comp_def]

theorem quotedBody_flatMap_escape (cs rest : List Char) :
    quotedBody (cs.flatMap escape ++ '"' :: rest) = some (cs.flatMap escape, rest) := by
  induction cs with
  | nil => rfl
  | cons c cs ih =>
      rw [List.flatMap_cons, List.append_assoc, quotedBody_escape, ih]
      rfl

/-! ## Escapes -/

theorem unescape?_escape (c : Char) (rest : List Char) :
    unescape? none (escape c ++ rest) = (unescape? none rest).map (c :: ·) := by
  have written := escaped_escape c
  generalize escape c = e at written ⊢
  cases written with
  | plain quote backslash control =>
      rw [List.singleton_append, unescape?.eq_def]
      split <;> simp_all
  | short other resolved =>
      rw [List.cons_append, List.singleton_append, unescape?, resolved]
      intro _ _ _ _ _ unit _
      exact absurd unit other
  | unit _ _ _ _ value =>
      simp only [List.cons_append, List.nil_append]
      rw [unescape?, value]
      simp only [plainUnit?_toNat]

theorem unescape?_flatMap_escape (cs : List Char) :
    unescape? none (cs.flatMap escape) = some cs := by
  induction cs with
  | nil => rfl
  | cons c cs ih => rw [List.flatMap_cons, unescape?_escape, ih, Option.map_some]

/-- A text that is written without a backslash is written as it is. -/
theorem flatMap_escape_eq_self {cs : List Char} (none : '\\' ∉ cs.flatMap escape) :
    cs.flatMap escape = cs := by
  induction cs with
  | nil => rfl
  | cons c cs ih =>
      rw [List.flatMap_cons, List.mem_append, not_or] at none
      have written := escaped_escape c
      rw [List.flatMap_cons, ih none.2]
      have absent := none.1
      generalize escape c = e at written absent ⊢
      cases written with
      | plain => rfl
      | short => simp at absent
      | unit => simp at absent

theorem ofBody?_flatMap_escape (cs : List Char) : ofBody? (cs.flatMap escape) = some cs := by
  rw [ofBody?]
  split
  · exact unescape?_flatMap_escape cs
  next plain => rw [flatMap_escape_eq_self (by simpa using plain)]

/-- A text between quotes reads back, whatever follows it. -/
theorem text?_quote (s : String) (rest : List Char) :
    text? (quote s ++ rest) = some (s, rest) := by
  rw [quote, List.cons_append, List.cons_append, List.append_assoc, List.singleton_append, text?,
    quotedBody_flatMap_escape]
  simp only [bind, Option.bind, ofBody?_flatMap_escape, pure, String.ofList_toList]

end BridgePool.Json
