import BridgePool.Proofs.Answers
import BridgePool.Proofs.Membership
import BridgePool.Proofs.Pool.Roster

/-!
# What the end of a page says

A page comes with a cursor exactly when it leaves rows out, and the page after that cursor begins
with the first of them (`Reachable.pagesExact`). This holds unless no rows are asked for: such a
page has no last row whose position could be given, so it comes without a cursor, whatever it leaves
out (`Listing.exists_row_hidden`).
-/

namespace BridgePool

namespace Scope

/-- The rows of the scope that come strictly after a cursor, in listing order. -/
def rows (scope : Scope) (s : Store) (after : Option Bytes) : List Transfer :=
  s.roster.filter fun t => scope.Covers t ∧ ∀ cursor ∈ after, t.Follows cursor

/-- The cursors that the scope goes on from. -/
def Accepts : Scope → Bytes → Prop
  | .pool, cursor => cursor.length = 60
  | .token contract, cursor => cursor.length = 60 ∧ contract.raw.val <+: cursor

end Scope

namespace Store

/-- The query for a page of the scope is answered with the page. -/
def Serves (s : Store) (scope : Scope) (after : Option Bytes) (limit : Option UInt32)
    (page : Listing.Page) : Prop :=
  Bridge.answer s (scope.query after limit) = .ok (.transfers page)

/-- What the pages of a store show, and what they say of the rows that they leave out. -/
structure PagesExact (s : Store) : Prop where
  /-- A page is served after every cursor that is accepted. -/
  served_iff : ∀ (scope : Scope) after limit,
    (∃ page, s.Serves scope after limit page) ↔ ∀ cursor ∈ after, scope.Accepts cursor
  /-- A page that was asked for a row or more comes without a cursor exactly when it shows every
  row that comes after the one it was asked for. -/
  next_eq_none_iff : ∀ (scope : Scope) after limit page, s.Serves scope after limit page →
    limit ≠ some 0 → (page.next = none ↔ ∀ t ∈ scope.rows s after, t ∈ page.transfers)
  /-- The page after the cursor begins with the first row that was left out. -/
  goes_on : ∀ (scope : Scope) after limit page cursor, s.Serves scope after limit page →
    page.next = some cursor →
      ∃ first rest, scope.rows s after = page.transfers ++ first :: rest ∧
        ∀ limit', limit' ≠ some 0 →
          ∃ page', s.Serves scope (some cursor) limit' page' ∧ page'.transfers.head? = some first
  /-- A page that was asked for no rows has none, and comes without a cursor. -/
  asked_none : ∀ (scope : Scope) after page, s.Serves scope after (some 0) page →
    page.transfers = [] ∧ page.next = none

end Store

variable {s : Store} {b : Book} {scope : Scope} {after : Option Bytes} {limit : Option UInt32}
  {page : Listing.Page}

/-! ## Pages as fronts of the rows -/

namespace Scope

/-- The cursors that are accepted are those of the scope's positions. -/
theorem accepts_cursorOf_iff {p : Position} :
    scope.Accepts (Listing.cursorOf p) ↔ scope.Spans p := by
  have long : (Listing.cursorOf p).length = 60 := Listing.exists_cursorOf_iff.mp ⟨p, rfl⟩
  cases scope with
  | pool => exact iff_of_true long trivial
  | token contract => exact (and_iff_right long).trans Listing.prefix_cursorOf_iff

theorem length_of_accepts {cursor : Bytes} (accepted : scope.Accepts cursor) :
    cursor.length = 60 := by
  cases scope with
  | pool => exact accepted
  | token contract => exact accepted.1

theorem listed_rows (h : s.Legible) (scope : Scope) (after : Option Bytes) :
    s.Listed (fun t => scope.Covers t ∧ ∀ cursor ∈ after, t.Follows cursor)
      (scope.rows s after) :=
  (h.listed_roster.filter _).congr fun _ _ => and_iff_right trivial

/-- A page is the front of the rows after its cursor. -/
theorem serves_front (h : s.Keeps b) (sound : b.Sound)
    (accepted : ∀ cursor ∈ after, scope.Accepts cursor) (limit : Option UInt32) :
    s.Serves scope after limit
      (.front (scope.rows s after) (Bridge.pageSize 100 1000 limit)) := by
  obtain ⟨place, rfl⟩ :=
    Listing.exists_place fun cursor mem => length_of_accepts (accepted cursor mem)
  have own : ∀ p ∈ place, scope.Spans p := fun p placed =>
    accepts_cursorOf_iff.mp (accepted _ (Option.mem_map_of_mem _ placed))
  obtain ⟨ts, listed, answers⟩ := answer_eq h sound scope place own
  have follows := listed.congr fun t _ => and_congr_right fun _ =>
    Transfer.follows_map_cursorOf.symm
  rw [Store.Serves, answers, follows.unique (listed_rows h.legible scope _)]

theorem served_iff (h : s.Keeps b) (sound : b.Sound) :
    (∃ page, s.Serves scope after limit page) ↔ ∀ cursor ∈ after, scope.Accepts cursor := by
  constructor
  · intro ⟨page, served⟩
    cases scope with
    | pool => exact (h.answer_waiting_iff sound).mp ⟨_, served⟩
    | token contract =>
        exact (h.answer_waitingOf_iff sound (Address.parse_spelling contract)).mp ⟨_, served⟩
  · intro accepted
    exact ⟨_, serves_front h sound accepted limit⟩

theorem eq_front_of_serves (h : s.Keeps b) (sound : b.Sound)
    (served : s.Serves scope after limit page) :
    page = .front (scope.rows s after) (Bridge.pageSize 100 1000 limit) := by
  have front := serves_front h sound ((served_iff h sound).mp ⟨page, served⟩) limit
  exact Answer.transfers.inj (Except.ok.inj (served.symm.trans front))

/-- After the cursor of a row come the rows after that row. -/
theorem rows_after_take (h : s.Keeps b) (sound : b.Sound) {count : Nat} {last : Transfer}
    (final : ((scope.rows s after).take count).getLast? = some last) :
    scope.Accepts (Listing.cursor last) ∧
      scope.rows s (some (Listing.cursor last)) = (scope.rows s after).drop count := by
  have listed := listed_rows h.legible scope after
  obtain ⟨waits, covers, follows⟩ :=
    (listed.mem_iff last).mp (List.mem_of_mem_take (List.mem_of_getLast? final))
  have spans : scope.Spans last.position := by
    cases scope with
    | pool => trivial
    | token contract =>
        have spelled := sound.spelled ((Store.mem_waiting h).mp waits).1
        exact (congrArg Address.raw spelled).trans covers
  refine ⟨accepts_cursorOf_iff.mpr spans, ?_⟩
  refine (listed_rows h.legible scope _).unique ((listed.drop count).congr fun t _ => ?_)
  rw [final, Listing.cursor_eq]
  simp only [Option.mem_def, Option.some.injEq, forall_eq', Transfer.follows_cursorOf, and_assoc]
  -- what comes after the row comes after the cursor that the row itself was asked for with
  constructor
  · intro ⟨covers, _, later⟩
    exact ⟨covers, later⟩
  · intro ⟨covers, later⟩
    refine ⟨covers, fun cursor given => ?_, later⟩
    obtain ⟨long, before⟩ := follows cursor given
    exact ⟨long, before.trans later⟩

end Scope

/-! ## Exact pages -/

theorem Store.Keeps.pages_exact (h : s.Keeps b) (sound : b.Sound) : s.PagesExact where
  served_iff _ _ _ := Scope.served_iff h sound
  next_eq_none_iff scope after limit page served positive := by
    obtain rfl := Scope.eq_front_of_serves h sound served
    have nodup := (Scope.listed_rows h.legible scope after).nodup
    rw [Listing.Page.next_front_eq_none (Bridge.pageSize_pos positive),
      Listing.Page.forall_mem_front_iff nodup]
  goes_on scope after limit page cursor served more := by
    obtain rfl := Scope.eq_front_of_serves h sound served
    obtain ⟨last, first, rest, final, rfl, left⟩ := Listing.Page.exists_of_next_front more
    obtain ⟨accepted, remain⟩ := Scope.rows_after_take h sound final
    refine ⟨first, rest, ?_, fun limit' positive => ?_⟩
    · rw [← left]
      exact (List.take_append_drop _ _).symm
    · refine ⟨_, Scope.serves_front h sound (fun _ named => ?_) limit', ?_⟩
      · exact Option.mem_some.mp named ▸ accepted
      · rw [Listing.Page.front, remain, left, List.head?_take,
          if_neg (Nat.ne_of_gt (Bridge.pageSize_pos positive)), List.head?_cons]
  asked_none scope after page served := by
    obtain rfl := Scope.eq_front_of_serves h sound served
    exact ⟨rfl, ite_self none⟩

/-- In every reachable store a page comes with a cursor exactly when it leaves rows out, unless no
rows are asked for. -/
theorem Reachable.pagesExact (h : Reachable s) : s.PagesExact :=
  h.keeps.pages_exact h.sound

/-- After the first send it is the one row, also after a cursor that names none. -/
theorem Chain.rows_firstSend : ∃ s, Reachable s ∧
    Scope.pool.rows s (some Listing.firstCursor) = [firstTransfer] ∧
      ∀ limit, s.Serves .pool (some Listing.firstCursor) limit
        (.front [firstTransfer] (Bridge.pageSize 100 1000 limit)) := by
  obtain ⟨config, _, _, _, _, _, keeps⟩ := run_firstSend
  generalize stored : (firstSend.run plainStore).2 = s at keeps
  have reached : Reachable s := stored ▸ reachable_firstSend
  have sound := reached.sound
  rw [keeps.book_eq] at sound
  have follows : firstTransfer.Follows Listing.firstCursor := by decide
  have only : Scope.pool.rows s (some Listing.firstCursor) = [firstTransfer] := by
    refine (Scope.listed_rows keeps.legible _ _).unique ⟨List.pairwise_singleton _ _, fun t => ?_⟩
    rw [List.mem_singleton, Store.mem_waiting keeps]
    constructor
    · rintro rfl
      exact ⟨⟨rfl, rfl⟩, trivial, fun _ named => Option.mem_some.mp named ▸ follows⟩
    · intro ⟨⟨kept, _⟩, _⟩
      by_cases first : t.id = firstTransfer.id
      · rw [first] at kept
        exact (Option.some.inj kept).symm
      · have absent : ((Book.founded config).accept firstTransfer firstSum).transfer t.id = none :=
          Function.update_of_ne first _ _
        cases absent.symm.trans kept
  refine ⟨s, reached, only, fun limit => ?_⟩
  rw [← only]
  exact Scope.serves_front keeps sound
    (fun _ named => Option.mem_some.mp named ▸ show Listing.firstCursor.length = 60 by decide) limit

/-- After the first send a page of one row shows it, and comes without a cursor. -/
theorem pagesExact_after_firstSend : ∃ s, Reachable s ∧ s.PagesExact ∧
    s.Serves .pool (some Listing.firstCursor) (some 1) ⟨[Chain.firstTransfer], none⟩ := by
  obtain ⟨s, reached, _, served⟩ := Chain.rows_firstSend
  exact ⟨s, reached, reached.pagesExact, served (some 1)⟩

/-- A page of no rows comes without a cursor though it leaves a row out. -/
theorem Listing.exists_row_hidden : ∃ s, Reachable s ∧
    s.Serves .pool (some firstCursor) (some 0) ⟨[], none⟩ ∧
      Chain.firstTransfer ∈ Scope.pool.rows s (some firstCursor) := by
  obtain ⟨s, reached, only, served⟩ := Chain.rows_firstSend
  exact ⟨s, reached, served (some 0), only ▸ List.mem_singleton_self _⟩

end BridgePool
