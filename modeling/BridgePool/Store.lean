import BridgePool.Bytes

/-!
# The ordered byte store

A `Store` maps byte strings to byte strings. Its rows are kept in strictly ascending key order,
so two stores with the same rows are equal, and a range of keys comes out sorted.

* `Store.get?_insert`, `Store.get?_erase` — what each change does to a look-up;
* `Store.mem_rows_iff` — a row is in the store exactly when its key leads to its value;
* `Store.ext_get?` — a store is determined by its look-ups;
* `Store.mem_range`, `Store.mem_rowsUnder` — which rows a listing holds.
-/

namespace BridgePool

/-- Byte strings to byte strings, in strictly ascending key order. -/
structure Store where
  rows : List (Bytes × Bytes)
  sorted : rows.Pairwise (·.1 < ·.1)

namespace Store

/-- Puts a row in its place, instead of a row with the same key. -/
def insertRow (key value : Bytes) : List (Bytes × Bytes) → List (Bytes × Bytes)
  | [] => [(key, value)]
  | row :: rest =>
    if row.1 < key then row :: insertRow key value rest
    else if row.1 = key then (key, value) :: rest
    else (key, value) :: row :: rest

theorem mem_insertRow {key value : Bytes} {rows : List (Bytes × Bytes)} {row : Bytes × Bytes}
    (h : row ∈ insertRow key value rows) : row = (key, value) ∨ row ∈ rows := by
  induction rows with
  | nil => simpa [insertRow] using h
  | cons first rest ih =>
    simp only [insertRow] at h
    split at h
    · rcases List.mem_cons.mp h with rfl | h
      · simp
      · rcases ih h with rfl | h <;> simp [*]
    · split at h
      · rcases List.mem_cons.mp h with rfl | h <;> simp [*]
      · simpa using h

theorem sorted_insertRow {key value : Bytes} {rows : List (Bytes × Bytes)}
    (h : rows.Pairwise (·.1 < ·.1)) : (insertRow key value rows).Pairwise (·.1 < ·.1) := by
  induction rows with
  | nil => simp [insertRow]
  | cons first rest ih =>
    obtain ⟨below, tail⟩ := List.pairwise_cons.mp h
    simp only [insertRow]
    split
    next lower =>
      refine List.pairwise_cons.mpr ⟨fun row mem => ?_, ih tail⟩
      rcases mem_insertRow mem with rfl | mem
      · exact lower
      · exact below row mem
    next notLower =>
      split
      next same =>
        exact List.pairwise_cons.mpr ⟨fun row mem => same ▸ below row mem, tail⟩
      next other =>
        have above : key < first.1 := by
          rcases Std.lt_trichotomy first.1 key with lower | same | above
          · exact absurd lower notLower
          · exact absurd same other
          · exact above
        refine List.pairwise_cons.mpr ⟨fun row mem => ?_, h⟩
        rcases List.mem_cons.mp mem with rfl | mem
        · exact above
        · exact List.lt_trans above (below row mem)

/-- No rows. -/
def empty : Store :=
  ⟨[], .nil⟩

/-- The value in the row with a key. -/
def findRow (key : Bytes) : List (Bytes × Bytes) → Option Bytes
  | [] => none
  | row :: rest => if row.1 = key then some row.2 else findRow key rest

/-- The value under a key. -/
def get? (s : Store) (key : Bytes) : Option Bytes :=
  findRow key s.rows

/-- Sets the value under a key. -/
def insert (s : Store) (key value : Bytes) : Store :=
  ⟨insertRow key value s.rows, sorted_insertRow s.sorted⟩

/-- Removes the row of a key, if there is one. -/
def erase (s : Store) (key : Bytes) : Store :=
  ⟨s.rows.filter (·.1 ≠ key), s.sorted.filter _⟩

/-- The rows from `low` up to but without `high`, in ascending key order. -/
def range (s : Store) (low high : Bytes) : List (Bytes × Bytes) :=
  s.rows.filter fun row => low ≤ row.1 ∧ row.1 < high

/-- The rows whose keys start with `start`, in ascending key order. -/
def rowsUnder (s : Store) (start : Bytes) : List (Bytes × Bytes) :=
  s.rows.filter (start.isPrefixOf ·.1)

/-! ## Look-ups -/

theorem findRow_insertRow (key value other : Bytes) (rows : List (Bytes × Bytes)) :
    findRow other (insertRow key value rows) =
      if other = key then some value else findRow other rows := by
  induction rows with
  | nil => simp [insertRow, findRow, eq_comm]
  | cons first rest ih =>
    simp only [insertRow]
    split
    next lower =>
      by_cases same : first.1 = other
      · subst same
        have apart : first.1 ≠ key := fun e => List.lt_irrefl key (e ▸ lower)
        simp [findRow, apart]
      · simp [findRow, same, ih]
    next =>
      split
      next same =>
        subst same
        by_cases hit : first.1 = other
        · simp [findRow, hit]
        · simp [findRow, hit, Ne.symm hit]
      next =>
        by_cases hit : key = other
        · simp [findRow, hit]
        · simp [findRow, hit, Ne.symm hit]

theorem findRow_filter_ne (key other : Bytes) (rows : List (Bytes × Bytes)) :
    findRow other (rows.filter (·.1 ≠ key)) = if other = key then none else findRow other rows := by
  induction rows with
  | nil => simp [findRow]
  | cons first rest ih =>
    by_cases gone : first.1 = key
    · by_cases same : other = key
      · simp_all
      · have apart : key ≠ other := fun e => same e.symm
        simp_all [findRow]
    · by_cases hit : first.1 = other
      · subst hit
        simp [findRow, gone]
      · simp_all [findRow]

theorem mem_of_findRow {key value : Bytes} {rows : List (Bytes × Bytes)}
    (h : findRow key rows = some value) : (key, value) ∈ rows := by
  induction rows with
  | nil => simp [findRow] at h
  | cons first rest ih =>
    simp only [findRow] at h
    split at h
    next hit =>
      cases h
      exact hit ▸ List.mem_cons_self
    next => exact List.mem_cons_of_mem _ (ih h)

theorem findRow_of_mem {rows : List (Bytes × Bytes)} (ordered : rows.Pairwise (·.1 < ·.1))
    {row : Bytes × Bytes} (h : row ∈ rows) : findRow row.1 rows = some row.2 := by
  induction rows with
  | nil => cases h
  | cons first rest ih =>
    obtain ⟨below, tail⟩ := List.pairwise_cons.mp ordered
    rcases List.mem_cons.mp h with rfl | h
    · simp [findRow]
    · have apart : first.1 ≠ row.1 := fun e => List.lt_irrefl row.1 (e ▸ below row h)
      simp [findRow, apart, ih tail h]

@[simp] theorem get?_empty (key : Bytes) : empty.get? key = none :=
  rfl

theorem get?_insert (s : Store) (key value other : Bytes) :
    (s.insert key value).get? other = if other = key then some value else s.get? other :=
  findRow_insertRow key value other s.rows

theorem get?_erase (s : Store) (key other : Bytes) :
    (s.erase key).get? other = if other = key then none else s.get? other :=
  findRow_filter_ne key other s.rows

theorem mem_rows_iff {s : Store} {row : Bytes × Bytes} :
    row ∈ s.rows ↔ s.get? row.1 = some row.2 :=
  ⟨findRow_of_mem s.sorted, mem_of_findRow⟩

/-- Two ascending lists with the same members are equal. -/
theorem eq_of_mem_iff {as bs : List (Bytes × Bytes)} (orderedA : as.Pairwise (·.1 < ·.1))
    (orderedB : bs.Pairwise (·.1 < ·.1)) (same : ∀ row, row ∈ as ↔ row ∈ bs) : as = bs := by
  induction as generalizing bs with
  | nil => exact (List.eq_nil_iff_forall_not_mem.mpr fun row mem => nomatch (same row).mpr mem).symm
  | cons a as ih =>
    cases bs with
    | nil => exact nomatch (same a).mp List.mem_cons_self
    | cons b bs =>
      obtain ⟨belowA, tailA⟩ := List.pairwise_cons.mp orderedA
      obtain ⟨belowB, tailB⟩ := List.pairwise_cons.mp orderedB
      have heads : a = b := by
        rcases List.mem_cons.mp ((same a).mp List.mem_cons_self) with e | inB
        · exact e
        rcases List.mem_cons.mp ((same b).mpr List.mem_cons_self) with e | inA
        · exact e.symm
        exact absurd (List.lt_trans (belowA b inA) (belowB a inB)) (List.lt_irrefl _)
      subst heads
      have tails : ∀ row, row ∈ as ↔ row ∈ bs := fun row => by
        constructor
        · intro mem
          rcases List.mem_cons.mp ((same row).mp (List.mem_cons_of_mem _ mem)) with e | inB
          · exact absurd (belowA row mem) (e ▸ List.lt_irrefl _)
          · exact inB
        · intro mem
          rcases List.mem_cons.mp ((same row).mpr (List.mem_cons_of_mem _ mem)) with e | inA
          · exact absurd (belowB row mem) (e ▸ List.lt_irrefl _)
          · exact inA
      rw [ih tailA tailB tails]

/-- A store is determined by its look-ups. -/
theorem ext_get? {s t : Store} (h : ∀ key, s.get? key = t.get? key) : s = t := by
  have rows : s.rows = t.rows :=
    eq_of_mem_iff s.sorted t.sorted fun row => by
      rw [mem_rows_iff, mem_rows_iff, h]
  cases s
  cases t
  cases rows
  rfl

theorem mem_range {s : Store} {low high : Bytes} {row : Bytes × Bytes} :
    row ∈ s.range low high ↔ s.get? row.1 = some row.2 ∧ low ≤ row.1 ∧ row.1 < high := by
  simp [range, mem_rows_iff]

theorem mem_rowsUnder {s : Store} {start : Bytes} {row : Bytes × Bytes} :
    row ∈ s.rowsUnder start ↔ s.get? row.1 = some row.2 ∧ start <+: row.1 := by
  simp [rowsUnder, mem_rows_iff]

theorem sorted_range (s : Store) (low high : Bytes) :
    (s.range low high).Pairwise (·.1 < ·.1) :=
  s.sorted.filter _

end Store

end BridgePool
