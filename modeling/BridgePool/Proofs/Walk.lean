import BridgePool.Proofs.Pool.Page
import BridgePool.Proofs.Membership
import BridgePool.Proofs.Settlement.Turn
import Mathlib.Algebra.Order.Floor.Div

/-!
# Walks through the pool

A client walks through a scope page by page: it passes the cursor that came with a page to the
query for the next one, until a page comes without a cursor. Between the pages any calls may run.

From every reachable store (`Reachable.walksExact`)

* the rows of a walk are in listing order, and none comes twice;
* each row waited when its page was served;
* a transfer that waits at every page comes exactly once;
* a walk through a store that stays as it is has as many pages as its limit says, and lists
  everything that waits there.

Two facts carry the proof. A cursor is a position, so what comes after it does not depend on whether
its own row still waits (`Scope.answer_eq`). And a transfer waits at one position only, whenever it
waits (`Store.Agree`), so what the cursor has passed by has been listed.
-/

namespace BridgePool

/-! ## Walks -/

/-- A page that was served: of which store, with which limit, and what came. -/
structure Visit where
  store : Store
  limit : Option UInt32
  page : Listing.Page

namespace Visit

/-- The rows of all pages, one after the other. -/
def rows (visits : List Visit) : List Transfer :=
  visits.flatMap (·.page.transfers)

/-- Where the next page starts. -/
def resume (visits : List Visit) : Option Bytes :=
  visits.getLast?.bind (·.page.next)

/-- The last page came without a cursor. -/
def Ended (visits : List Visit) : Prop :=
  ∃ v ∈ visits.getLast?, v.page.next = none

end Visit

/-- A walk that starts at a store: the pages served so far, and the store by then. -/
inductive Walk (scope : Scope) (s : Store) : List Visit → Store → Prop where
  | start : Walk scope s [] s
  | call {visits : List Visit} {s' : Store} (c : Call) :
      Walk scope s visits s' → Walk scope s visits (c.run s').2
  | page {visits : List Visit} {s' : Store} {limit : Option UInt32} {page : Listing.Page} :
      Walk scope s visits s' → ¬ Visit.Ended visits → limit ≠ some 0 →
      Bridge.answer s' (scope.query (Visit.resume visits) limit) = .ok (.transfers page) →
      Walk scope s (visits ++ [⟨s', limit, page⟩]) s'

/-- The number of pages of a walk during which the store does not change. -/
def Scope.pages (scope : Scope) (s : Store) (limit : Option UInt32) : Nat :=
  max 1 ((s.waiting.filter scope.Covers).length ⌈/⌉ min ((limit.map UInt32.toNat).getD 100) 1000)

/-- What walks from a store list, whatever calls run between their pages. -/
structure Store.WalksExact (s : Store) : Prop where
  /-- A walk that has not ended is served its next page. -/
  served : ∀ {scope visits s'}, Walk scope s visits s' → ¬ Visit.Ended visits → ∀ limit,
    ∃ page, Bridge.answer s' (scope.query (Visit.resume visits) limit) = .ok (.transfers page)
  /-- The rows of all pages are in listing order. -/
  ordered : ∀ {scope visits s'}, Walk scope s visits s' →
    (Visit.rows visits).Pairwise Transfer.listedBefore
  /-- No transfer comes twice. -/
  once : ∀ {scope visits s'}, Walk scope s visits s' → ((Visit.rows visits).map (·.id)).Nodup
  /-- What comes with a page waits then. -/
  waited : ∀ {scope visits s'}, Walk scope s visits s' →
    ∀ v ∈ visits, ∀ t ∈ v.page.transfers, t ∈ v.store.waiting ∧ scope.Covers t
  /-- What waits at every page of a whole walk comes exactly once. -/
  complete : ∀ {scope visits s'}, Walk scope s visits s' → Visit.Ended visits →
    ∀ id, (∀ v ∈ visits, ∃ t ∈ v.store.waiting, t.id = id ∧ scope.Covers t) →
      ((Visit.rows visits).map (·.id)).count id = 1
  /-- When the store does not change, the walk goes on up to its number of pages, and ends there. -/
  still_pages : ∀ {scope visits s' limit}, Walk scope s visits s' →
    (∀ v ∈ visits, v.store = s ∧ v.limit = limit) →
      visits.length ≤ scope.pages s limit ∧
        (Visit.Ended visits ↔ visits.length = scope.pages s limit)
  /-- It then has listed everything. -/
  still_lists : ∀ {scope visits s'}, Walk scope s visits s' → (∀ v ∈ visits, v.store = s) →
    Visit.Ended visits → s.Listed scope.Covers (Visit.rows visits)
  /-- There is such a walk for every limit. -/
  still_ends : ∀ scope limit, limit ≠ some 0 → ∃ visits, Walk scope s visits s ∧
    (∀ v ∈ visits, v.store = s ∧ v.limit = limit) ∧ Visit.Ended visits

variable {s s' : Store} {b b' : Book} {scope : Scope} {visits : List Visit} {v : Visit}
  {limit : Option UInt32} {ts : List Transfer} {t : Transfer}

namespace Visit

@[simp] theorem rows_concat : rows (visits ++ [v]) = rows visits ++ v.page.transfers := by
  simp [rows]

@[simp] theorem resume_concat : resume (visits ++ [v]) = v.page.next := by
  simp [resume]

@[simp] theorem ended_concat : Ended (visits ++ [v]) ↔ v.page.next = none := by
  simp [Ended]

theorem not_ended_nil : ¬ Ended [] := by
  simp [Ended]

theorem exists_of_ended (ended : Ended visits) : ∃ v, v ∈ visits := by
  obtain ⟨v, final, _⟩ := ended
  exact ⟨v, List.mem_of_getLast? final⟩

theorem mem_rows : t ∈ rows visits ↔ ∃ v ∈ visits, t ∈ v.page.transfers :=
  List.mem_flatMap

end Visit

/-! ## Records that stay -/

/-- The later book has no other record under an id that the earlier one gave out. -/
structure Book.Precedes (b b' : Book) : Prop where
  next_le : b.next ≤ b'.next
  sent : ∀ id < b.next, b'.sent id = b.sent id ∨ b'.sent id = none

namespace Book.Precedes

theorem refl (b : Book) : b.Precedes b :=
  ⟨UInt64.le_refl _, fun _ _ => .inl rfl⟩

theorem trans {b'' : Book} (first : b.Precedes b') (second : b'.Precedes b'') :
    b.Precedes b'' where
  next_le := UInt64.le_trans first.next_le second.next_le
  sent id given := by
    rcases second.sent id (UInt64.lt_of_lt_of_le given first.next_le) with same | gone
    · rw [same]
      exact first.sent id given
    · exact .inr gone

theorem of_turn {e : Chain.Step} (turn : Chain.Turn b b' e) (recorded : b.Recorded) :
    b.Precedes b' where
  next_le := turn.next_le
  sent id given := by
    cases was : b.sent id with
    | none => exact .inr (turn.stays_gone given was)
    | some t =>
        by_cases gone : b'.sent id = none
        · exact .inr gone
        · exact .inl (turn.stays_same recorded was gone)

end Book.Precedes

/-- A transfer that waits in both stores is the same in both. -/
def Store.Agree (s s' : Store) : Prop :=
  ∀ t ∈ s.waiting, ∀ u ∈ s'.waiting, t.id = u.id → t = u

theorem Store.Agree.symm (h : s.Agree s') : s'.Agree s :=
  fun t memT u memU same => (h u memU t memT same.symm).symm

/-- A transfer that waits is as it was sent. -/
theorem Store.Keeps.sent_of_waiting (h : s.Keeps b) (waits : t ∈ s.waiting) :
    b.sent t.id = some t := by
  obtain ⟨kept, unbatched⟩ := (mem_waiting h).mp waits
  rw [Book.sent, kept, Option.map_some, Transfer.asSent_of_waits unbatched]

theorem Book.Precedes.agree (h : s.Keeps b) (h' : s'.Keeps b') (sound : b.Sound)
    (precedes : b.Precedes b') : s.Agree s' := by
  intro t memT u memU same
  have sent := h.sent_of_waiting memT
  have sent' := h'.sent_of_waiting memU
  have given : t.id < b.next := (sound.fresh ((Store.mem_waiting h).mp memT).1).2
  rw [← same] at sent'
  rcases precedes.sent t.id given with still | gone
  · rw [still, sent, Option.some.injEq] at sent'
    exact sent'
  · rw [gone] at sent'
    cases sent'

theorem Reachable.precedes (h : Reachable s) (c : Call) : s.book.Precedes (c.run s).2.book :=
  .of_turn (h.turn c) h.sound.toRecorded

/-! ## What a walk has listed -/

/-- What holds after any pages of a walk. -/
structure Walk.Progress (scope : Scope) (visits : List Visit) (s : Store) : Prop where
  reachable : Reachable s
  past : ∀ v ∈ visits, Reachable v.store ∧ v.store.book.Precedes s.book
  agree : ∀ v ∈ visits, ∀ w ∈ visits, v.store.Agree w.store
  ordered : (Visit.rows visits).Pairwise Transfer.listedBefore
  waited : ∀ v ∈ visits, ∀ t ∈ v.page.transfers, t ∈ v.store.waiting ∧ scope.Covers t
  resume : ¬ Visit.Ended visits →
    Visit.resume visits = (Visit.rows visits).getLast?.map Listing.cursor
  /-- What has waited all along has been listed, or is still ahead. -/
  passed : ∀ t, scope.Covers t → (∀ v ∈ visits, t ∈ v.store.waiting) →
    t ∈ Visit.rows visits ∨
      ¬ Visit.Ended visits ∧ ∀ last ∈ (Visit.rows visits).getLast?, last.listedBefore t

namespace Walk

namespace Progress

theorem start (h : Reachable s) : Progress scope [] s where
  reachable := h
  past := by simp
  agree := by simp
  ordered := .nil
  waited := by simp
  resume _ := rfl
  passed t _ _ := .inr ⟨Visit.not_ended_nil, by simp [Visit.rows]⟩

/-- A call moves neither the rows nor the cursor. -/
theorem call (p : Progress scope visits s) (c : Call) : Progress scope visits (c.run s).2 where
  reachable := p.reachable.call c
  past v mem := (p.past v mem).imp_right fun before => before.trans (p.reachable.precedes c)
  agree := p.agree
  ordered := p.ordered
  waited := p.waited
  resume := p.resume
  passed := p.passed

theorem spans_of_mem (p : Progress scope visits s) (mem : t ∈ Visit.rows visits) :
    scope.Spans t.position := by
  obtain ⟨v, visited, shown⟩ := Visit.mem_rows.mp mem
  obtain ⟨waits, covers⟩ := p.waited v visited t shown
  have reached := (p.past v visited).1
  cases scope with
  | pool => trivial
  | token contract =>
      have spelled := reached.sound.spelled ((Store.mem_waiting reached.keeps).mp waits).1
      exact (congrArg Address.raw spelled).trans covers

/-- The next page is the front of what comes after the last row. -/
theorem exists_rest (p : Progress scope visits s) (on : ¬ Visit.Ended visits) :
    ∃ ts, s.Listed (fun t => scope.Covers t ∧
        ∀ last ∈ (Visit.rows visits).getLast?, last.listedBefore t) ts ∧
      ∀ limit, Bridge.answer s (scope.query (Visit.resume visits) limit) =
        .ok (.transfers (.front ts (Bridge.pageSize 100 1000 limit))) := by
  obtain ⟨ts, listed, answers⟩ := Scope.answer_eq p.reachable.keeps p.reachable.sound scope
    ((Visit.rows visits).getLast?.map Transfer.position) (by
      intro position found
      obtain ⟨last, final, rfl⟩ := Option.map_eq_some_iff.mp found
      exact p.spans_of_mem (List.mem_of_getLast? final))
  refine ⟨ts, listed.congr fun t _ => and_congr_right fun _ => ?_, fun limit => ?_⟩
  · simp [Transfer.listedBefore_iff]
  · have cursors : Listing.cursor = Listing.cursorOf ∘ Transfer.position :=
      funext Listing.cursor_eq
    rw [p.resume on, cursors, ← Option.map_map, answers limit]

/-- A page adds the front of what comes after the last row. -/
theorem page {page : Listing.Page} (p : Progress scope visits s) (on : ¬ Visit.Ended visits)
    (positive : limit ≠ some 0)
    (served : Bridge.answer s (scope.query (Visit.resume visits) limit) =
      .ok (.transfers page)) : Progress scope (visits ++ [⟨s, limit, page⟩]) s := by
  obtain ⟨ts, listed, answers⟩ := p.exists_rest on
  have room := Bridge.pageSize_pos positive
  rw [answers limit, Except.ok.injEq, Answer.transfers.injEq] at served
  generalize Bridge.pageSize 100 1000 limit = size at served room
  subst served
  -- what is ahead of the cursor is ahead of every row
  have ahead : ∀ t ∈ ts, ∀ row ∈ Visit.rows visits, row.listedBefore t := fun t mem =>
    Transfer.after_of_last p.ordered ((listed.mem_iff t).mp mem).2.2
  constructor
  case reachable => exact p.reachable
  case past => exact List.forall_mem_append.mpr ⟨p.past, by simp [p.reachable, Book.Precedes.refl]⟩
  case agree =>
    have agrees {s₀ : Store} (h : Reachable s₀) (precedes : s₀.book.Precedes s.book) :
        s₀.Agree s := precedes.agree h.keeps p.reachable.keeps h.sound
    have before (v) (visited : v ∈ visits) : v.store.Agree s :=
      agrees (p.past v visited).1 (p.past v visited).2
    simp only [List.forall_mem_append, List.forall_mem_singleton]
    exact ⟨fun v visited => ⟨p.agree v visited, before v visited⟩,
      fun v visited => (before v visited).symm, agrees p.reachable (.refl _)⟩
  case ordered =>
    rw [Visit.rows_concat]
    have shown := listed.ordered.sublist (List.take_sublist size ts)
    exact List.pairwise_append.mpr ⟨p.ordered, shown,
      fun row earlier t mem => ahead t (List.mem_of_mem_take mem) row earlier⟩
  case waited =>
    refine List.forall_mem_append.mpr ⟨p.waited, fun v new t mem => ?_⟩
    rw [List.mem_singleton.mp new] at mem ⊢
    obtain ⟨waits, covers, _⟩ := (listed.mem_iff t).mp (List.mem_of_mem_take mem)
    exact ⟨waits, covers⟩
  case resume =>
    intro more
    rw [Visit.ended_concat] at more
    rw [Visit.resume_concat, Visit.rows_concat]
    exact Listing.Page.next_front _ more
  case passed =>
    intro t covers waits
    obtain ⟨waited, now⟩ := List.forall_mem_append.mp waits
    rw [Visit.rows_concat, Visit.ended_concat, List.mem_append]
    rcases p.passed t covers waited with shown | ⟨_, after⟩
    · exact .inl (.inl shown)
    · have mem : t ∈ ts :=
        (listed.mem_iff t).mpr ⟨now _ (List.mem_singleton_self _), covers, after⟩
      rcases Listing.Page.mem_front_or room listed.ordered mem with shown | ⟨more, before⟩
      · exact .inl (.inr shown)
      · refine .inr ⟨more, fun last final => ?_⟩
        rcases List.mem_append.mp (List.mem_of_getLast? final) with earlier | shown
        · exact ahead t mem last earlier
        · exact before last shown

/-! ### Consequences -/

theorem nodup_ids (p : Progress scope visits s) : ((Visit.rows visits).map (·.id)).Nodup := by
  refine (Transfer.nodup_of_ordered p.ordered).map_on fun t memT u memU same => ?_
  obtain ⟨v, visited, shown⟩ := Visit.mem_rows.mp memT
  obtain ⟨w, visited', shown'⟩ := Visit.mem_rows.mp memU
  exact p.agree v visited w visited' t (p.waited v visited t shown).1 u
    (p.waited w visited' u shown').1 same

theorem count_eq_one (p : Progress scope visits s) (ended : Visit.Ended visits) {id : UInt64}
    (waits : ∀ v ∈ visits, ∃ t ∈ v.store.waiting, t.id = id ∧ scope.Covers t) :
    ((Visit.rows visits).map (·.id)).count id = 1 := by
  obtain ⟨last, visited⟩ := Visit.exists_of_ended ended
  obtain ⟨t, waiting, rfl, covers⟩ := waits last visited
  have same : ∀ v ∈ visits, t ∈ v.store.waiting := by
    intro v visited'
    obtain ⟨u, waiting', same, _⟩ := waits v visited'
    rw [p.agree last visited v visited' t waiting u waiting' same.symm]
    exact waiting'
  have shown : t ∈ Visit.rows visits :=
    (p.passed t covers same).resolve_right fun ⟨on, _⟩ => on ended
  exact List.count_eq_one_of_mem p.nodup_ids (List.mem_map_of_mem shown)

end Progress

/-- Whatever calls run between its pages, a walk makes progress. -/
theorem progress (h : Reachable s) (walk : Walk scope s visits s') : Progress scope visits s' := by
  induction walk with
  | start => exact .start h
  | call c _ ih => exact ih.call c
  | page _ on positive served ih => exact ih.page on positive served

/-! ## Walks through a store that stays as it is -/

theorem pages_eq (h : Reachable s) (all : s.Listed scope.Covers ts) :
    scope.pages s limit = max 1 (ts.length ⌈/⌉ Bridge.pageSize 100 1000 limit) := by
  rw [Scope.pages, ← all.length_eq h.keeps.legible]
  rfl

/-- Each page takes the next rows of the full listing. -/
theorem rows_eq_take (h : Reachable s) (all : s.Listed scope.Covers ts)
    (walk : Walk scope s visits s') (still : ∀ v ∈ visits, v.store = s ∧ v.limit = limit) :
    Visit.rows visits = ts.take (visits.length * Bridge.pageSize 100 1000 limit) ∧
      visits.length ≤ scope.pages s limit ∧
        (Visit.Ended visits ↔ visits.length = scope.pages s limit) := by
  rw [pages_eq h all]
  induction walk with
  | start =>
      refine ⟨by simp [Visit.rows], Nat.zero_le _, iff_of_false Visit.not_ended_nil ?_⟩
      simp only [List.length_nil]
      omega
  | call c _ ih => exact ih still
  | @page visits s' limit' page walk on positive served ih =>
      obtain ⟨earlier, now⟩ := List.forall_mem_append.mp still
      obtain ⟨same, same'⟩ : s' = s ∧ limit' = limit := now _ (List.mem_singleton_self _)
      subst same same'
      obtain ⟨rows, bounded, ends⟩ := ih earlier
      obtain ⟨rest, listed, answers⟩ := (walk.progress h).exists_rest on
      have room := Bridge.pageSize_pos positive
      rw [answers, Except.ok.injEq, Answer.transfers.injEq] at served
      generalize Bridge.pageSize 100 1000 limit' = size at *
      subst served
      -- the rows so far are a front of the listing, so its rest is what comes after the last
      rw [rows] at listed
      obtain rfl := listed.unique (all.drop (visits.length * size))
      have last_page : ts.length ⌈/⌉ size ≤ visits.length + 1 ↔
          ts.length ≤ size * (visits.length + 1) := ceilDiv_le_iff_le_mul room
      have product : size * (visits.length + 1) = visits.length * size + size := by ring
      have not_last : visits.length ≠ max 1 (ts.length ⌈/⌉ size) := fun same => on (ends.mpr same)
      rw [Visit.rows_concat, Visit.ended_concat, rows, List.length_append, List.length_singleton]
      refine ⟨?_, ?_, ?_⟩
      · rw [Nat.succ_mul, List.take_add]
        rfl
      · omega
      · rw [Listing.Page.next_front_eq_none room, List.length_drop]
        omega

theorem exists_listed (h : Reachable s) (scope : Scope) : ∃ ts, s.Listed scope.Covers ts := by
  have first : Progress scope [] s := .start h
  obtain ⟨ts, listed, _⟩ := first.exists_rest Visit.not_ended_nil
  exact ⟨ts, listed.congr fun t _ => by simp [Visit.rows]⟩

theorem pages_of_still (h : Reachable s) (walk : Walk scope s visits s')
    (still : ∀ v ∈ visits, v.store = s ∧ v.limit = limit) :
    visits.length ≤ scope.pages s limit ∧
      (Visit.Ended visits ↔ visits.length = scope.pages s limit) := by
  obtain ⟨ts, all⟩ := exists_listed h scope
  exact (walk.rows_eq_take h all still).2

/-- There is a walk of every number of pages up to that of a whole one. -/
theorem exists_still (h : Reachable s) (scope : Scope) (positive : limit ≠ some 0) {count : Nat}
    (bounded : count ≤ scope.pages s limit) : ∃ visits, Walk scope s visits s ∧
      visits.length = count ∧ ∀ v ∈ visits, v.store = s ∧ v.limit = limit := by
  induction count with
  | zero => exact ⟨[], .start, rfl, by simp⟩
  | succ count ih =>
      obtain ⟨visits, walk, length, still⟩ := ih (Nat.le_of_succ_le bounded)
      obtain ⟨_, ends⟩ := walk.pages_of_still h still
      have on : ¬ Visit.Ended visits := fun ended => by
        rw [← ends.mp ended] at bounded
        omega
      obtain ⟨_, _, served⟩ := (walk.progress h).exists_rest on
      refine ⟨_, walk.page on positive (served limit), ?_, ?_⟩
      · rw [List.length_append, List.length_singleton, length]
      · exact List.forall_mem_append.mpr ⟨still, by simp⟩

/-- What a whole walk through one store has listed is all there is. -/
theorem Progress.listed (p : Progress scope visits s') (still : ∀ v ∈ visits, v.store = s)
    (ended : Visit.Ended visits) : s.Listed scope.Covers (Visit.rows visits) where
  ordered := p.ordered
  mem_iff t := by
    constructor
    · intro mem
      obtain ⟨v, visited, shown⟩ := Visit.mem_rows.mp mem
      exact still v visited ▸ p.waited v visited t shown
    · intro ⟨waits, covers⟩
      have waited : ∀ v ∈ visits, t ∈ v.store.waiting := fun v visited =>
        (still v visited).symm ▸ waits
      exact (p.passed t covers waited).resolve_right fun ⟨on, _⟩ => on ended

end Walk

/-- Walks from every reachable store are exact. -/
theorem Reachable.walksExact (h : Reachable s) : s.WalksExact where
  served walk on limit := by
    obtain ⟨_, _, served⟩ := (walk.progress h).exists_rest on
    exact ⟨_, served limit⟩
  ordered walk := (walk.progress h).ordered
  once walk := (walk.progress h).nodup_ids
  waited walk := (walk.progress h).waited
  complete walk ended id waits := (walk.progress h).count_eq_one ended waits
  still_pages walk := walk.pages_of_still h
  still_lists walk := (walk.progress h).listed
  still_ends scope limit positive := by
    obtain ⟨visits, walk, length, still⟩ := Walk.exists_still h scope positive (Nat.le_refl _)
    exact ⟨visits, walk, still, (walk.pages_of_still h still).2.mpr length⟩

/-- The first send comes with a walk after it. -/
theorem walksExact_after_firstSend : ∃ s visits, Reachable s ∧ s.WalksExact ∧
    Walk .pool s visits s ∧ Visit.Ended visits ∧ Chain.firstTransfer ∈ Visit.rows visits := by
  obtain ⟨_, _, _, _, _, _, keeps⟩ := Chain.run_firstSend
  have walks := Chain.reachable_firstSend.walksExact
  obtain ⟨visits, walk, still, ended⟩ := walks.still_ends .pool none nofun
  have waits := (Store.mem_waiting (t := Chain.firstTransfer) keeps).mpr ⟨rfl, rfl⟩
  have listed := walks.still_lists walk (fun v visited => (still v visited).1) ended
  exact ⟨_, visits, Chain.reachable_firstSend, walks, walk, ended,
    (listed.mem_iff _).mpr ⟨waits, trivial⟩⟩

end BridgePool
