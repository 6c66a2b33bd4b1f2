import BridgePool.Proofs.Batch.Members
import BridgePool.Proofs.Book.Batches
import BridgePool.Proofs.Bridge.Outcome
import BridgePool.Proofs.Pool.Listing

/-!
# What the life of a batch does to a book

On a store that keeps a sound book, a batch can be built exactly when the book `Gathers` it
(`Batch.run_build_eq_ok`), and it can be ended exactly while it is recorded and open
(`Batch.run_cancel_eq_ok`, `Batch.run_execute_eq_ok`). No fault can come from inside the loops over
its transfers, since an open batch lists only transfers that are kept.
-/

namespace BridgePool

open Operation

variable {b : Book} {s s' : Store} {v v' : Vault} {batch closed : Batch} {nonce : UInt64}
  {state : BatchState}

namespace Store

theorem takeNonce_eq_ok (h : s.Keeps b) :
    s.takeNonce = .ok (nonce, s') ↔
      nonce = b.last + 1 ∧ b.last.toNat + 1 < UInt64.size ∧ s' = s.saveWord .lastNonce nonce := by
  simp only [takeNonce, h.lastNonce, Book.last, bind, Except.bind]
  split
  next room =>
    simp only [pure, Except.pure, Except.ok.injEq, Prod.mk.injEq]
    constructor
    · rintro ⟨rfl, rfl⟩
      exact ⟨rfl, room, rfl⟩
    · rintro ⟨rfl, _, rfl⟩
      exact ⟨rfl, rfl⟩
  next full =>
    simp only [reduceCtorEq, false_iff]
    rintro ⟨_, room, _⟩
    exact full room

end Store

namespace Batch

/-! ## Building -/

/-- The ids of records are those they were looked up by. -/
theorem ids_of_records (sound : b.Recorded) {ids : List UInt64} {ts : List Transfer}
    (kept : ids.map b.transfer = ts.map some) : ts.map (·.id) = ids := by
  induction ids generalizing ts with
  | nil =>
      obtain rfl := List.map_eq_nil_iff.mp kept.symm
      rfl
  | cons id ids ih =>
      cases ts with
      | nil => simp at kept
      | cons t ts =>
          obtain ⟨found, rest⟩ := List.cons.inj kept
          rw [List.map_cons, ih rest, sound.transfer_id found]

theorem exists_records {ids : List UInt64} (kept : ∀ id ∈ ids, ∃ t, b.transfer id = some t) :
    ∃ ts : List Transfer, ids.map b.transfer = ts.map some := by
  induction ids with
  | nil => exact ⟨[], rfl⟩
  | cons id ids ih =>
      obtain ⟨t, found⟩ := kept id List.mem_cons_self
      obtain ⟨ts, rest⟩ := ih fun i mem => kept i (List.mem_cons_of_mem _ mem)
      exact ⟨t :: ts, by rw [List.map_cons, List.map_cons, found, rest]⟩

/-- The book with the batch counter moved on. -/
def countedOn (b : Book) (nonce : UInt64) : Book :=
  { b with lastNonce := some nonce }

/-- The writes of a build, after the counter and the transfers. -/
theorem keeps_build
    (h : s.Keeps ((countedOn b batch.nonce).carry batch.ids batch.nonce)) :
    ((s.saveBatch batch).saveOpenNonce batch.contract batch.nonce).Keeps (b.gather batch) := by
  have keeps := (h.saveBatch batch).saveOpenNonce batch.contract batch.nonce
  dsimp only at keeps
  exact keeps

theorem gathers_of_listed {contract : RawAddress} {count : Nat} {all : List Position}
    {lead : Transfer} {rest : List Transfer} (free : b.openNonce contract = none)
    (lists : b.Lists contract all)
    (kept : ((all.take count).map Position.id).map b.transfer = (lead :: rest).map some)
    (ids : batch.ids = (all.take count).map Position.id)
    (spelled : batch.contract = lead.token.contract) (own_nonce : batch.nonce = b.last + 1)
    (room : b.last.toNat + 1 < UInt64.size) (opened : batch.state = .open) :
    b.Gathers contract count batch where
  free := free
  ids := ⟨all, lists, ids⟩
  spelled := by
    refine ⟨lead, ?_, spelled⟩
    have first := congrArg List.head? kept
    rw [← ids, List.head?_map] at first
    cases head : batch.ids.head? with
    | none => simp [head] at first
    | some id => simpa [head] using first
  own_nonce := own_nonce
  room := room
  opened := opened

/-- The transfers that a batch takes can be moved into it. -/
theorem exists_assigned (h : s.Keeps b) (filed : b.Filed) {contract : RawAddress} {count : Nat}
    (gathers : b.Gathers contract count batch) :
    ∃ (selected : List Transfer) (s₁ : Store), batch.ids.map b.transfer = selected.map some ∧
      selected.map (·.id) = batch.ids ∧
        run (selected.forM (assign batch.nonce)) (s.saveWord .lastNonce batch.nonce) =
          (.ok (), s₁) ∧
          s₁.Keeps ((countedOn b batch.nonce).carry batch.ids batch.nonce) := by
  obtain ⟨selected, kept⟩ := exists_records fun id listed =>
    (gathers.waiting filed listed).imp fun _ => And.left
  have ids := ids_of_records filed.toRecorded kept
  have counted : (s.saveWord .lastNonce batch.nonce).Keeps (countedOn b batch.nonce) :=
    h.saveLastNonce batch.nonce
  obtain ⟨s₁, assigned, carried⟩ := run_forM_assign batch.nonce counted
    (ids.symm ▸ kept) (ids.symm ▸ gathers.nodup filed)
  rw [ids] at carried
  exact ⟨selected, s₁, kept, ids, assigned, carried⟩

/-- Some store keeps the book after a build. -/
theorem exists_keeps_gather (h : s.Keeps b) (filed : b.Filed) {contract : RawAddress} {count : Nat}
    (gathers : b.Gathers contract count batch) : ∃ s' : Store, s'.Keeps (b.gather batch) := by
  obtain ⟨_, _, _, _, _, carried⟩ := exists_assigned h filed gathers
  exact ⟨_, keeps_build carried⟩

/-- A batch is built exactly when the book gathers it. -/
theorem run_build_eq_ok (h : s.Keeps b) (filed : b.Filed) {block timeout : UInt64}
    {contract : Address} {count : Nat} :
    run (build block contract count timeout) s = (.ok batch, s') ↔
      b.Gathers contract.raw count batch ∧ batch.timeout = timeout ∧ batch.block = block ∧
        s'.Keeps (b.gather batch) := by
  obtain ⟨all, lists, _⟩ := h.feeKeys_eq contract.raw
  simp only [build, run_bind_eq_ok, run_read_eq_ok, h.openNonce?, Except.ok.injEq]
  constructor
  · rintro ⟨_, s, ⟨rfl, rfl⟩, done⟩
    split at done
    next => exact absurd done run_stop_eq_ok
    next free =>
    simp only [run_bind_eq_ok, run_read_eq_ok, Listing.first_eq_ok h lists] at done
    obtain ⟨selected, s, ⟨kept, rfl⟩, done⟩ := done
    have ids := ids_of_records filed.toRecorded kept
    split at done
    next => exact absurd done run_stop_eq_ok
    next lead rest =>
    simp only [run_bind_eq_ok, run_take_eq_ok, run_update_eq_ok, run_pure_eq_ok,
      Store.takeNonce_eq_ok h] at done
    obtain ⟨nonce, _, ⟨own_nonce, room, rfl⟩, _, s₁, assigned, _, _, rfl, _, _, rfl, rfl, rfl⟩ := done
    have gathers : b.Gathers contract.raw count
        ⟨nonce, timeout, (lead :: rest).map (·.id), lead.token.contract, block, .open⟩ :=
      gathers_of_listed free lists kept ids rfl own_nonce room rfl
    have counted : (s.saveWord .lastNonce nonce).Keeps (countedOn b nonce) :=
      h.saveLastNonce nonce
    rw [← ids] at kept
    -- the assignment is known to succeed with the book we want, and a run has one result
    obtain ⟨s₂, assigned', keeps⟩ :=
      run_forM_assign nonce counted kept (gathers.nodup filed)
    rw [assigned'] at assigned
    obtain rfl := (Prod.mk.inj assigned).2
    exact ⟨gathers, rfl, rfl, keeps_build keeps⟩
  · rintro ⟨gathers, rfl, rfl, keeps⟩
    obtain ⟨_, lists', front⟩ := gathers.ids
    obtain rfl := lists.unique lists'
    obtain ⟨lead, first, spelled⟩ := gathers.spelled
    obtain ⟨selected, s₁, kept, ids, assigned, carried⟩ := exists_assigned h filed gathers
    refine ⟨none, s, ⟨gathers.free, rfl⟩, ?_⟩
    simp only [run_bind_eq_ok, run_read_eq_ok, Listing.first_eq_ok h lists]
    refine ⟨selected, s, ⟨front ▸ kept, rfl⟩, ?_⟩
    cases selected with
    | nil => simp [← ids] at first
    | cons lead' rest =>
        obtain rfl : lead' = lead := by
          rw [← ids, List.map_cons, List.head?_cons, Option.bind_some] at first
          rw [← ids, List.map_cons, List.map_cons] at kept
          exact Option.some.inj ((List.cons.inj kept).1.symm.trans first)
        simp only [run_bind_eq_ok, run_take_eq_ok, run_update_eq_ok, run_pure_eq_ok,
          Store.takeNonce_eq_ok h]
        have whole : batch = ⟨batch.nonce, batch.timeout, (lead' :: rest).map (·.id),
            lead'.token.contract, batch.block, .open⟩ :=
          Batch.ext rfl rfl ids.symm spelled rfl gathers.opened
        refine ⟨batch.nonce, _, ⟨gathers.own_nonce, gathers.room, rfl⟩, (), s₁, assigned, (), _,
          rfl, (), _, rfl, whole, ?_⟩
        rw [← whole, ← spelled]
        exact (keeps_build carried).eq_iff.mpr keeps

/-! ## Ending -/

theorem run_loadOpen_eq_ok (h : s.Keeps b) :
    run (loadOpen nonce) s = (.ok batch, s') ↔
      b.batch nonce = some batch ∧ batch.state = .open ∧ s' = s := by
  simp only [loadOpen, run_bind_eq_ok, run_read_eq_ok, h.batch?, Except.ok.injEq]
  constructor
  · rintro ⟨_, s, ⟨rfl, rfl⟩, done⟩
    split at done
    next => exact absurd done run_stop_eq_ok
    next found recorded =>
    simp only [run_bind_eq_ok, run_require_eq_ok, run_pure_eq_ok] at done
    obtain ⟨_, _, ⟨going, rfl⟩, rfl, rfl⟩ := done
    exact ⟨recorded, by simpa [BatchState.isTerminal] using going, rfl⟩
  · rintro ⟨recorded, opened, rfl⟩
    refine ⟨_, _, ⟨rfl, rfl⟩, ?_⟩
    rw [recorded]
    simp only [run_bind_eq_ok, run_require_eq_ok, run_pure_eq_ok]
    exact ⟨(), _, ⟨by simp [opened, BatchState.isTerminal], rfl⟩, trivial, rfl⟩

theorem keeps_close_back (h : s.Keeps (b.giveBack batch.ids)) :
    ((s.saveBatch { batch with state }).clearOpenNonce batch.contract).Keeps
      (b.disband batch state) := by
  have keeps := (h.saveBatch { batch with state }).clearOpenNonce batch.contract
  dsimp only at keeps
  exact keeps

theorem keeps_close_dropped {ts : List Transfer} (h : s.Keeps (b.drop batch.ids ts)) :
    ((s.saveBatch { batch with state := .executed }).clearOpenNonce batch.contract).Keeps
      (b.settle batch ts) := by
  have keeps := (h.saveBatch { batch with state := .executed }).clearOpenNonce batch.contract
  dsimp only at keeps
  exact keeps

variable (state) in
/-- A batch whose transfers are all kept can be given back. -/
theorem run_returnToPool_of_kept (h : s.Keeps b)
    (kept : ∀ id ∈ batch.ids, ∃ t, b.transfer id = some t ∧ t.id = id) :
    ∃ s', run (returnToPool batch state) s = (.ok { batch with state }, s') ∧
      s'.Keeps (b.disband batch state) := by
  obtain ⟨s₁, back, keeps⟩ := run_forM_putBack h kept
  exact ⟨_, run_bind_eq_ok.mpr ⟨(), s₁, back, rfl⟩, keeps_close_back keeps⟩

variable (state) in
/-- An open batch can always be given back. -/
theorem run_returnToPool (h : s.Keeps b) (sound : b.Sound)
    (recorded : b.batch nonce = some batch) (opened : batch.state = .open) :
    ∃ s', run (returnToPool batch state) s = (.ok { batch with state }, s') ∧
      s'.Keeps (b.disband batch state) :=
  run_returnToPool_of_kept state h fun _ listed =>
    have ⟨t, kept, _⟩ := sound.open_kept recorded opened listed
    ⟨t, kept, sound.transfer_id kept⟩

/-- A batch is cancelled exactly while it is recorded and open. -/
theorem run_cancel_eq_ok (h : s.Keeps b) (sound : b.Sound) :
    run (cancel nonce) s = (.ok closed, s') ↔
      ∃ batch, b.batch nonce = some batch ∧ batch.state = .open ∧
        closed = { batch with state := .cancelled } ∧ s'.Keeps (b.disband batch .cancelled) := by
  simp only [cancel, run_bind_eq_ok, run_loadOpen_eq_ok h]
  constructor
  · rintro ⟨batch, s, ⟨recorded, opened, rfl⟩, done⟩
    -- giving back is known to succeed, and a run has one result
    obtain ⟨s₁, done', keeps⟩ := run_returnToPool .cancelled h sound recorded opened
    obtain ⟨answer, rfl⟩ := Prod.mk.inj (done.symm.trans done')
    exact ⟨batch, recorded, opened, Except.ok.inj answer, keeps⟩
  · rintro ⟨batch, recorded, opened, rfl, keeps⟩
    obtain ⟨s₁, done, keeps'⟩ := run_returnToPool .cancelled h sound recorded opened
    obtain rfl := keeps'.eq_iff.mpr keeps
    exact ⟨batch, s, ⟨recorded, opened, rfl⟩, done⟩

/-! ## Executing -/

/-- The transfers of an open batch are kept. -/
theorem exists_carried (sound : b.Sound) (recorded : b.batch nonce = some batch)
    (opened : batch.state = .open) :
    ∃ ts : List Transfer, batch.ids.map b.transfer = ts.map some :=
  exists_records fun _ listed =>
    (sound.open_kept recorded opened listed).imp fun _ => And.left

/-- The ledger can pay for the transfers of a batch. -/
theorem payable_carried (sound : b.Sound) (recorded : b.batch nonce = some batch)
    {ts : List Transfer} (kept : batch.ids.map b.transfer = ts.map some) :
    Payable b.locked ts := by
  constructor
  case spelled =>
    intro t mem
    obtain ⟨id, _, found⟩ := Book.exists_id_of_mem kept mem
    exact sound.spelled found
  case positive =>
    intro t mem
    obtain ⟨id, _, found⟩ := Book.exists_id_of_mem kept mem
    exact sound.positive found
  case covered =>
    intro denom
    -- what the batch lists is part of what all records are worth, which the ledger holds
    have whole := b.worthOf_without (sound.sized recorded).2.2 kept denom
    rw [sound.held_eq]
    omega

/-- An open batch can always be executed. -/
theorem run_execute (h : v.store.Keeps b) (sound : b.Sound)
    (recorded : b.batch nonce = some batch) (opened : batch.state = .open) {ts : List Transfer}
    (kept : batch.ids.map b.transfer = ts.map some) :
    ∃ v', run (execute nonce) v = (.ok { batch with state := .executed }, v') ∧
      v'.store.Keeps (b.settle batch ts) ∧
      v'.escrow = { v.escrow with messages := v.escrow.messages ++ ts.map burning } := by
  have ids := ids_of_records sound.toRecorded kept
  have own : b.openNonce batch.contract.raw = some nonce :=
    sound.open_iff.mpr ⟨batch, recorded, opened, rfl⟩
  obtain ⟨w, settled, keeps, escrow⟩ := run_forM_settle h (ids.symm ▸ kept)
    (ids.symm ▸ (sound.sized recorded).2.2) (payable_carried sound recorded kept)
  rw [ids] at settled keeps
  have loaded : run (Vault.onStore (loadOpen nonce)) v = (.ok batch, v) :=
    Vault.run_onStore_eq_ok.mpr ⟨(run_loadOpen_eq_ok h).mpr ⟨recorded, opened, rfl⟩, rfl⟩
  have looked : run (Vault.onStore (.read (·.openNonce? batch.contract))) v =
      (.ok (some nonce), v) :=
    Vault.run_onStore_eq_ok.mpr ⟨run_read_eq_ok.mpr ⟨by rw [h.openNonce?, own], rfl⟩, rfl⟩
  refine ⟨⟨_, w.escrow⟩, ?_, keeps_close_dropped keeps, escrow⟩
  exact run_bind_eq_ok.mpr ⟨batch, v, loaded, run_bind_eq_ok.mpr ⟨some nonce, v, looked,
    run_bind_eq_ok.mpr ⟨(), v, run_require_eq_ok.mpr ⟨rfl, rfl⟩,
      run_bind_eq_ok.mpr ⟨(), w, settled, rfl⟩⟩⟩⟩

/-- A batch is executed exactly while it is recorded and open. -/
theorem run_execute_eq_ok (h : v.store.Keeps b) (sound : b.Sound) :
    run (execute nonce) v = (.ok closed, v') ↔
      ∃ batch ts, b.batch nonce = some batch ∧ batch.state = .open ∧
        batch.ids.map b.transfer = ts.map some ∧
        closed = { batch with state := .executed } ∧ v'.store.Keeps (b.settle batch ts) ∧
        v'.escrow = { v.escrow with messages := v.escrow.messages ++ ts.map burning } := by
  constructor
  · intro done
    obtain ⟨batch, w, loaded, _⟩ := run_bind_eq_ok.mp done
    obtain ⟨loaded, _⟩ := Vault.run_onStore_eq_ok.mp loaded
    obtain ⟨recorded, opened, _⟩ := (run_loadOpen_eq_ok h).mp loaded
    obtain ⟨ts, kept⟩ := exists_carried sound recorded opened
    obtain ⟨w', done', keeps, escrow⟩ := run_execute h sound recorded opened kept
    obtain ⟨answer, rfl⟩ := Prod.mk.inj (done.symm.trans done')
    exact ⟨batch, ts, recorded, opened, kept, Except.ok.inj answer, keeps, escrow⟩
  · rintro ⟨batch, ts, recorded, opened, kept, rfl, keeps, escrow⟩
    obtain ⟨w, done, keeps', escrow'⟩ := run_execute h sound recorded opened kept
    obtain rfl : v' = w := Vault.ext (keeps'.eq_iff.mpr keeps) (escrow.trans escrow'.symm)
    exact done

/-! ## Timing out -/

/-- The open batches, in ascending order of their contracts. -/
structure Opens (b : Book) (bs : List Batch) : Prop where
  mem_iff : ∀ {batch}, batch ∈ bs ↔ b.batch batch.nonce = some batch ∧ batch.state = .open
  ascending : bs.Pairwise fun c d => c.contract.raw.val < d.contract.raw.val

/-- The row that names an open batch. -/
def openRow (batch : Batch) : Bytes × Bytes :=
  ((Cell.openBatch batch.contract.raw).key, Cell.word batch.nonce)

theorem mem_openRows (h : s.Keeps b) (filed : b.Filed) (key row : Bytes) :
    (key, row) ∈ s.range [0x06] [0x07] ↔
      ∃ batch, (b.batch batch.nonce = some batch ∧ batch.state = .open) ∧
        openRow batch = (key, row) := by
  rw [Store.mem_range]
  constructor
  · rintro ⟨found, low, high⟩
    dsimp only at found low high
    obtain ⟨c, rfl, kind, admits⟩ := h.legible.cell_of_family (b := 0x06) (by decide) found low high
    cases admits <;> simp [Cell.family] at kind
    case openBatch contract n =>
      rw [h.get?_openBatch, Option.map_eq_some_iff] at found
      obtain ⟨_, open_nonce, same⟩ := found
      obtain rfl := Cell.word_injective same
      obtain ⟨batch, recorded, opened, rfl⟩ := filed.open_iff.mp open_nonce
      obtain rfl := filed.batch_nonce recorded
      exact ⟨batch, ⟨recorded, opened⟩, rfl⟩
  · rintro ⟨batch, ⟨recorded, opened⟩, same⟩
    obtain ⟨rfl, rfl⟩ := Prod.mk.inj same
    have open_nonce := filed.open_iff.mpr ⟨batch, recorded, opened, rfl⟩
    have range := Store.Legible.family_range_of_key (b := 0x06) (by decide)
      (c := .openBatch batch.contract.raw) rfl
    refine ⟨?_, range⟩
    rw [h.get?_openBatch, open_nonce, Option.map_some]

theorem exists_opens (h : s.Keeps b) (filed : b.Filed) :
    ∃ bs, Opens b bs ∧ s.range [0x06] [0x07] = bs.map openRow := by
  have rows : s.range [0x06] [0x07] ∈ Set.range (List.map
      fun batch : {batch // b.batch batch.nonce = some batch ∧ batch.state = .open} =>
        openRow batch) := by
    rw [Set.range_list_map]
    rintro ⟨key, row⟩ mem
    obtain ⟨batch, recorded, same⟩ := (mem_openRows h filed _ _).mp mem
    exact ⟨⟨batch, recorded⟩, same⟩
  obtain ⟨bs, rows⟩ := rows
  refine ⟨bs.map Subtype.val, ⟨fun {batch} => ⟨?_, fun recorded => ?_⟩, ?_⟩, ?_⟩
  · intro mem
    obtain ⟨c, _, rfl⟩ := List.mem_map.mp mem
    exact c.property
  · have mem := (mem_openRows h filed _ _).mpr ⟨batch, recorded, rfl⟩
    rw [← rows] at mem
    obtain ⟨c, mem, same⟩ := List.mem_map.mp mem
    have nonces := Cell.word_injective (Prod.mk.inj same).2
    have found := c.property.1
    rw [nonces, recorded.1, Option.some.injEq] at found
    exact List.mem_map.mpr ⟨c, mem, found.symm⟩
  · have ascending := s.sorted_range [0x06] [0x07]
    rw [← rows, List.pairwise_map] at ascending
    rw [List.pairwise_map]
    apply ascending.imp
    intro _ _ below
    simpa [openRow, Cell.key, List.cons_lt_cons_iff] using below
  · rw [List.map_map]
    exact rows.symm

/-- The open batches are found through their contracts' rows. -/
theorem openBatches_eq_ok (h : s.Keeps b) (filed : b.Filed) :
    ∃ bs, Opens b bs ∧ openBatches s = .ok bs := by
  obtain ⟨bs, opens, rows⟩ := exists_opens h filed
  have nonces : (bs.map openRow).mapM (fun row => Cell.word? row.2) = .ok (bs.map (·.nonce)) := by
    rw [mapM_eq_ok, List.forall₂_map_left_iff, List.forall₂_map_right_iff, List.forall₂_same]
    exact fun batch _ => Cell.word?_word batch.nonce
  have batches : (bs.map (·.nonce)).mapM s.batch? = .ok (bs.map some) := by
    rw [mapM_eq_ok, List.forall₂_map_left_iff, List.forall₂_map_right_iff, List.forall₂_same]
    intro batch mem
    rw [h.batch?, (opens.mem_iff.mp mem).1]
  refine ⟨bs, opens, ?_⟩
  rw [openBatches, rows, nonces]
  simp only [bind, Except.bind, batches, pure, Except.pure]
  simp

theorem run_mapM_returnToPool (h : s.Keeps b) (sound : b.Sound) {bs : List Batch}
    (recorded : ∀ batch ∈ bs, b.batch batch.nonce = some batch ∧ batch.state = .open)
    (distinct : (bs.map (·.nonce)).Nodup) :
    ∃ s' b', run (bs.mapM (returnToPool · .timedOut)) s =
        (.ok (bs.map fun batch => { batch with state := .timedOut }), s') ∧
      s'.Keeps b' ∧ Moves b (bs.map (.disband · .timedOut)) b' := by
  induction bs generalizing b s with
  | nil => exact ⟨s, b, rfl, h, .done⟩
  | cons batch bs ih =>
      obtain ⟨found, opened⟩ := recorded batch List.mem_cons_self
      obtain ⟨fresh, distinct⟩ := List.nodup_cons.mp distinct
      obtain ⟨s₁, first, keeps⟩ := run_returnToPool .timedOut h sound found opened
      have rest : ∀ c ∈ bs, (b.disband batch .timedOut).batch c.nonce = some c ∧
          c.state = .open := by
        intro c mem
        obtain ⟨found, opened⟩ := recorded c (List.mem_cons_of_mem _ mem)
        refine ⟨?_, opened⟩
        rw [← found]
        refine Function.update_of_ne (fun same => fresh ?_) _ _
        exact List.mem_map.mpr ⟨c, mem, same⟩
      obtain ⟨s', b', done, keeps, moves⟩ :=
        ih keeps (sound.disband found opened (.inr rfl)) rest distinct
      refine ⟨s', b', ?_, keeps, .next (.disband found opened (.inr rfl)) moves⟩
      rw [List.mapM_cons]
      exact run_bind_eq_ok.mpr ⟨_, s₁, first, run_bind_eq_ok.mpr ⟨_, s', done, rfl⟩⟩

/-- Pruning gives back the batches that expire, one after the other. -/
theorem exists_expires (h : s.Keeps b) (filed : b.Filed) (height : UInt64) :
    ∃ bs, b.Expires height bs ∧
      run (prune height) s = run (bs.mapM (returnToPool · .timedOut)) s := by
  obtain ⟨bs, opens, found⟩ := openBatches_eq_ok h filed
  refine ⟨bs.filter (·.timeout < height), ⟨fun {batch} => ?_, opens.ascending.filter _⟩, ?_⟩
  · rw [List.mem_filter, opens.mem_iff, decide_eq_true_iff, and_assoc]
  · exact run_bind_of_ok (run_read_eq_ok.mpr ⟨found, rfl⟩)

/-- Pruning always succeeds, and times out the batches that expire. -/
theorem run_prune (h : s.Keeps b) (sound : b.Sound) (height : UInt64) :
    ∃ bs s' b', b.Expires height bs ∧
      run (prune height) s = (.ok (bs.map fun batch => { batch with state := .timedOut }), s') ∧
      s'.Keeps b' ∧ Moves b (bs.map (.disband · .timedOut)) b' := by
  obtain ⟨bs, expires, prunes⟩ := exists_expires h sound.filed height
  obtain ⟨s', b', done, keeps, moves⟩ := run_mapM_returnToPool h sound
    (fun _ mem => ⟨(expires.mem_iff.mp mem).1, (expires.mem_iff.mp mem).2.1⟩)
    expires.nodup_nonces
  exact ⟨bs, s', b', expires, prunes.trans done, keeps, moves⟩

end Batch

end BridgePool
