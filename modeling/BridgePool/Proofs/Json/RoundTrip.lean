import BridgePool.Json.Parser
import BridgePool.Proofs.Json.Quoted

/-!
# Values read back

`Json.parse?` gives back every value that `Json.toText` writes, as long as its bare words are
plain and its lists and records nest no deeper than the reader allows (`Json.Readable`,
`Json.parse?_toText`).
-/

namespace BridgePool.Json

/-- A bare word of letters and digits: it ends where the next delimiter starts. -/
def Plain (w : String) : Prop :=
  w.toList ≠ [] ∧ ∀ c ∈ w.toList, c.isAlphanum = true

instance (w : String) : Decidable (Plain w) :=
  decidable_of_iff (w.toList ≠ [] ∧ w.toList.all Char.isAlphanum = true) (by simp [Plain])

/-- A value with plain words whose lists and records nest at most so deep. -/
inductive Readable : Nat → Json → Prop
  | word {depth w} : Plain w → Readable depth (.word w)
  | text {depth s} : Readable depth (.text s)
  | list {depth items} : (∀ j ∈ items, Readable depth j) → Readable (depth + 1) (.list items)
  | record {depth fields} : (∀ f ∈ fields, Readable depth f.2) →
      Readable (depth + 1) (.record fields)

theorem Readable.mono {depth more : Nat} {j : Json} (h : Readable depth j) (le : depth ≤ more) :
    Readable more j := by
  induction h generalizing more with
  | word plain => exact .word plain
  | text => exact .text
  | list _ ih =>
      obtain ⟨more, rfl⟩ : ∃ m, more = m + 1 := ⟨more - 1, by omega⟩
      exact .list fun j hj => ih j hj (by omega)
  | record _ ih =>
      obtain ⟨more, rfl⟩ : ∃ m, more = m + 1 := ⟨more - 1, by omega⟩
      exact .record fun f hf => ih f hf (by omega)

/-- What may follow a value: nothing, or a delimiter. -/
def Closed (rest : List Char) : Prop :=
  ∀ c ∈ rest.head?, isDelimiter c = true

/-! ## Blanks and words -/

/-- A character that is no blank, no comma and no closing bracket: a value may start with it. -/
def Opens (c : Char) : Prop :=
  isBlank c = false ∧ isDelimiter c = false

theorem skipBlank_of_opens {c : Char} (h : Opens c) (rest : List Char) :
    skipBlank (c :: rest) = c :: rest := by
  simp [skipBlank, h.1]

theorem skipBlank_of_closed {rest : List Char} (h : Closed rest) : skipBlank rest = rest := by
  cases rest with
  | nil => rfl
  | cons c rest =>
      have delimiter : isDelimiter c = true := h c rfl
      have solid : isBlank c = false := by
        simp only [isDelimiter, Bool.or_eq_true, decide_eq_true_eq] at delimiter
        rcases delimiter with (rfl | rfl) | rfl <;> decide
      simp [skipBlank, solid]

theorem opens_of_isAlphanum {c : Char} (h : c.isAlphanum = true) :
    Opens c ∧ c ≠ '"' ∧ c ≠ '[' ∧ c ≠ '{' := by
  have apart : ∀ d : Char, d.isAlphanum = false → c ≠ d := by
    rintro d other rfl
    rw [h] at other
    cases other
  refine ⟨⟨?_, ?_⟩, apart _ (by decide), apart _ (by decide), apart _ (by decide)⟩
  · simp [isBlank, apart ' ' (by decide), apart '\t' (by decide), apart '\r' (by decide),
      apart '\n' (by decide)]
  · simp [isDelimiter, apart ',' (by decide), apart '}' (by decide), apart ']' (by decide)]

theorem bareWord_append {w : String} (plain : Plain w) {rest : List Char} (closed : Closed rest) :
    bareWord (w.toList ++ rest) = (.word w, rest) := by
  have inside : ∀ c ∈ w.toList, (! isDelimiter c) = true := fun c hc => by
    simp [(opens_of_isAlphanum (plain.2 c hc)).1.2]
  have stop : rest.takeWhile (! isDelimiter ·) = [] ∧
      rest.dropWhile (! isDelimiter ·) = rest := by
    cases rest with
    | nil => simp
    | cons c rest =>
        have delimiter : isDelimiter c = true := closed c rfl
        simp [delimiter]
  have front : (w.toList ++ rest).takeWhile (! isDelimiter ·) = w.toList := by
    rw [List.takeWhile_append_of_pos inside, stop.1, List.append_nil]
  have back : (w.toList ++ rest).dropWhile (! isDelimiter ·) = rest := by
    rw [List.dropWhile_append_of_pos inside, stop.2]
  -- a plain word ends in no blank, so the trimming of its end takes nothing away
  have solid : w.toList.reverse.dropWhile isBlank = w.toList.reverse := by
    cases last : w.toList.reverse with
    | nil => rfl
    | cons c cs =>
        have mem : c ∈ w.toList := List.mem_reverse.mp (last ▸ List.mem_cons_self)
        simp [(opens_of_isAlphanum (plain.2 c mem)).1.1]
  simp only [bareWord, front, back, solid, List.reverse_reverse, String.ofList_toList]

/-! ## Sequences -/

/-- Elements separated by commas. -/
def joined {α : Type} (write : α → List Char) : List α → List Char
  | [] => []
  | [a] => write a
  | a :: b :: rest => write a ++ ',' :: joined write (b :: rest)

/-- A field of a record as it is written. -/
def renderField (field : String × Json) : List Char :=
  quote field.1 ++ ':' :: render field.2

theorem renderItems_eq (items : List Json) : renderItems items = joined render items := by
  fun_induction joined render items with
  | case1 => rfl
  | case2 => rfl
  | case3 a b rest ih => rw [renderItems, ih]

theorem renderFields_eq (fields : List (String × Json)) :
    renderFields fields = joined renderField fields := by
  fun_induction joined renderField fields with
  | case1 => rfl
  | case2 => rfl
  | case3 a b rest ih => rw [renderFields, ih]; simp [renderField]

section

variable {α : Type} {write : α → List Char} {as : List α}

theorem length_le_joined (nonempty : ∀ a ∈ as, write a ≠ []) :
    as.length ≤ (joined write as).length := by
  fun_induction joined write as with
  | case1 => simp
  | case2 a => simpa [Nat.one_le_iff_ne_zero] using nonempty a (by simp)
  | case3 a b rest ih =>
      have tail := ih fun x hx => nonempty x (List.mem_cons_of_mem _ hx)
      simp only [List.length_cons, List.length_append] at tail ⊢
      omega

/-- If every element reads back, so does a sequence of them up to its closing character. -/
theorem elements_joined {element? : List Char → Option (α × List Char)} {close : Char}
    (stops : isDelimiter close = true) (apart : close ≠ ',') (nonempty : as ≠ [])
    (reads : ∀ a ∈ as, ∀ rest, Closed rest → element? (write a ++ rest) = some (a, rest))
    {n : Nat} (enough : as.length ≤ n) (rest : List Char) :
    elements element? close false n (joined write as ++ close :: rest) = some (as, rest) := by
  have closes : Closed (close :: rest) := by simpa [Closed] using stops
  -- every element takes one unit of fuel, whatever it is written as
  induction as generalizing n with
  | nil => exact absurd rfl nonempty
  | cons a as ih =>
      obtain ⟨fuel, rfl⟩ : ∃ fuel, n = fuel + 1 := ⟨n - 1, by simp at enough; omega⟩
      have first := reads a List.mem_cons_self
      cases as with
      | nil =>
          rw [joined, elements, first _ closes]
          simp [skipBlank_of_closed closes]
      | cons b as =>
          have comma : Closed (',' :: (joined write (b :: as) ++ close :: rest)) := by
            simp [Closed, isDelimiter]
          have tail := ih (by simp) (fun x hx => reads x (List.mem_cons_of_mem _ hx))
            (n := fuel) (by simpa using enough)
          rw [joined, List.append_assoc, List.cons_append, elements, first _ comma]
          simp [skipBlank_of_closed comma, apart.symm, tail]

variable (as) in
theorem start_joined {a : α} {c : Char} {cs : List Char} (start : write a = c :: cs) :
    ∃ more, joined write (a :: as) = c :: more := by
  cases as with
  | nil => exact ⟨cs, start⟩
  | cons b as => exact ⟨_, by rw [joined, start, List.cons_append]⟩

/-- A bracketed sequence reads back from its opening bracket on. -/
theorem enclosed_joined {element? : List Char → Option (α × List Char)} {close : Char}
    (stops : isDelimiter close = true) (apart : close ≠ ',')
    (opens : ∀ a ∈ as, ∃ c cs, write a = c :: cs ∧ Opens c)
    (reads : ∀ a ∈ as, ∀ rest, Closed rest → element? (write a ++ rest) = some (a, rest))
    (rest : List Char) :
    enclosed element? close (joined write as ++ close :: rest) = some (as, rest) := by
  cases as with
  | nil =>
      have closes : Closed (close :: rest) := by simpa [Closed] using stops
      simp [joined, enclosed, skipBlank_of_closed closes]
  | cons a as =>
      obtain ⟨c, cs, start, hc⟩ := opens a List.mem_cons_self
      obtain ⟨more, front⟩ := start_joined as start
      have other : c ≠ close := by
        rintro rfl
        rw [hc.2] at stops
        cases stops
      -- the fuel is the length of the text, and every element is written with a character at least
      have room : (a :: as).length ≤ (joined write (a :: as)).length :=
        length_le_joined fun x hx => by
          obtain ⟨d, ds, shape, _⟩ := opens x hx
          simp [shape]
      have whole := elements_joined stops apart (by simp) reads
        (n := (more ++ close :: rest).length + 1)
        (by rw [front] at room; simp at room ⊢; omega) rest
      rw [front, List.cons_append] at whole ⊢
      rw [enclosed, skipBlank_of_opens hc]
      simp only [if_neg other]
      exact whole

end

/-! ## Values -/

theorem opens_render {depth : Nat} {j : Json} (h : Readable depth j) :
    ∃ c cs, render j = c :: cs ∧ Opens c := by
  cases h with
  | @word _ w plain =>
      cases letters : w.toList with
      | nil => exact absurd letters plain.1
      | cons c cs =>
          have letter := plain.2 c (letters ▸ List.mem_cons_self)
          exact ⟨c, cs, by rw [render, letters], (opens_of_isAlphanum letter).1⟩
  | text => exact ⟨'"', _, by rw [render, quote]; rfl, by constructor <;> decide⟩
  | list => exact ⟨'[', _, by rw [render]; rfl, by constructor <;> decide⟩
  | record => exact ⟨'{', _, by rw [render]; rfl, by constructor <;> decide⟩

theorem value?_scalar {c : Char} (opens : Opens c) (list : c ≠ '[') (record : c ≠ '{')
    (depth : Nat) (cs : List Char) : value? depth (c :: cs) = scalar? (c :: cs) := by
  cases depth with
  | zero => rfl
  | succ depth =>
      rw [value?, skipBlank_of_opens opens]
      split
      next h => exact absurd (List.cons.inj h).1 list
      next h => exact absurd (List.cons.inj h).1 record
      next => rfl

theorem field?_renderField {element? : List Char → Option (Json × List Char)}
    {f : String × Json} {rest : List Char}
    (reads : element? (render f.2 ++ rest) = some (f.2, rest)) :
    field? element? (renderField f ++ rest) = some (f, rest) := by
  have colon : skipBlank (':' :: (render f.2 ++ rest)) = ':' :: (render f.2 ++ rest) :=
    skipBlank_of_opens (by constructor <;> decide) _
  have quotes : ∀ cs, skipBlank (quote f.1 ++ cs) = quote f.1 ++ cs := fun cs =>
    skipBlank_of_opens (by constructor <;> decide) _
  rw [field?, renderField, List.append_assoc, List.cons_append, quotes, text?_quote]
  simp only [bind, Option.bind, colon, reads, pure]

theorem listItems_joined {element? : List Char → Option (Json × List Char)} {items : List Json}
    (opens : ∀ j ∈ items, ∃ c cs, render j = c :: cs ∧ Opens c)
    (reads : ∀ j ∈ items, ∀ rest, Closed rest → element? (render j ++ rest) = some (j, rest))
    (rest : List Char) :
    listItems element? (joined render items ++ ']' :: rest) = some (items, rest) := by
  have bracketed : enclosed element? ']' (joined render items ++ ']' :: rest) =
      some (items, rest) := enclosed_joined (by decide) (by decide) opens reads rest
  -- the reader looks out for a leading comma, which no element starts with
  obtain ⟨c, cs, front, solid, other⟩ : ∃ c cs,
      joined render items ++ ']' :: rest = c :: cs ∧ isBlank c = false ∧ c ≠ ',' := by
    cases items with
    | nil => exact ⟨']', rest, rfl, by decide, by decide⟩
    | cons j items =>
        obtain ⟨c, cs, start, hc⟩ := opens j List.mem_cons_self
        obtain ⟨more, front⟩ := start_joined items start
        refine ⟨c, more ++ ']' :: rest, by rw [front, List.cons_append], hc.1, ?_⟩
        rintro rfl
        cases hc.2
  have skip : skipBlank (c :: cs) = c :: cs := by simp [skipBlank, solid]
  rw [front] at bracketed ⊢
  rw [listItems, skip]
  split
  next h => exact absurd (List.cons.inj h).1 other
  next => exact bracketed

theorem value?_render {depth : Nat} {j : Json} (h : Readable depth j) {rest : List Char}
    (closed : Closed rest) : value? depth (render j ++ rest) = some (j, rest) := by
  -- along the nesting of the value, for whatever follows it
  induction h generalizing rest with
  | @word depth w plain =>
      obtain ⟨c, cs, start, opens⟩ := opens_render (.word plain : Readable depth (.word w))
      rw [render] at start ⊢
      have letter := opens_of_isAlphanum (plain.2 c (start ▸ List.mem_cons_self))
      have read := bareWord_append plain closed
      rw [start, List.cons_append] at read ⊢
      rw [value?_scalar opens letter.2.2.1 letter.2.2.2, scalar?, skipBlank_of_opens opens]
      simp [letter.2.1, letter.2.2.1, letter.2.2.2, opens.2, read]
  | @text depth s =>
      have opens : Opens '"' := by constructor <;> decide
      have read := text?_quote s rest
      rw [render]
      rw [quote, List.cons_append, List.cons_append] at read ⊢
      rw [value?_scalar opens (by decide) (by decide), scalar?, skipBlank_of_opens opens]
      simp only [if_true, read, Option.map_some]
  | @list depth items inner ih =>
      have bracket : Opens '[' := by constructor <;> decide
      have read := listItems_joined (fun j hj => opens_render (inner j hj))
        (fun j hj rest closed => ih j hj closed) rest
      rw [render, renderItems_eq, List.cons_append, List.cons_append, List.append_assoc,
        List.singleton_append, value?, skipBlank_of_opens bracket]
      simp only [read, Option.map_some]
  | @record depth fields inner ih =>
      have bracket : Opens '{' := by constructor <;> decide
      have read : enclosed (field? (value? depth)) '}'
          (joined renderField fields ++ '}' :: rest) = some (fields, rest) :=
        enclosed_joined (by decide) (by decide)
        (fun f hf => ⟨'"', _, by rw [renderField, quote]; rfl, by constructor <;> decide⟩)
        (fun f hf rest closed => field?_renderField (ih f hf closed)) rest
      rw [render, renderFields_eq, List.cons_append, List.cons_append, List.append_assoc,
        List.singleton_append, value?, skipBlank_of_opens bracket]
      simp only [read, Option.map_some]

/-- The reader gives back what was written. -/
theorem parse?_toText {j : Json} (h : Readable maxDepth j) : parse? j.toText = some j := by
  have closed : Closed [] := by simp [Closed]
  have read := value?_render h closed
  rw [List.append_nil] at read
  rw [parse?, parseWithin?, toText, String.toList_ofList, read]
  rfl

end BridgePool.Json
