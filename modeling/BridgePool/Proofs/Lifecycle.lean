import BridgePool.Proofs.Refusal

/-!
# Lifecycle calls on a book

A lifecycle call on a sound book comes to every outcome that the book admits
(`Call.InLifecycle.run_of_outcome`), and deeds leave one book only (`Moves.unique`). An outcome
needs little of the book: the administrator, and at the end of a block the height and the batches
(`Outcome.of_sees`). So two stores that agree on what a call needs can be compared by their books.
-/

namespace BridgePool

open Operation

variable {s s' : Store} {b b' b₁ b₂ : Book} {c : Call} {r : Response} {d : Deed} {ds : List Deed}

/-! ## Deeds leave one book -/

theorem Move.unique (m : Move b d b₁) (m' : Move b d b₂) : b₁ = b₂ := by
  cases m with
  | accept _ _ _ _ _ credited =>
      cases m' with
      | accept _ _ _ _ _ credited' =>
          obtain rfl := Amount.ext (credited.trans credited'.symm)
          rfl
  | _ => cases m'; rfl

theorem Moves.unique (m : Moves b ds b₁) (m' : Moves b ds b₂) : b₁ = b₂ := by
  induction m with
  | done =>
      cases m'
      rfl
  | next first _ ih =>
      cases m' with
      | next first' rest =>
          obtain rfl := first.unique first'
          exact ih rest

/-- The batches that a height times out are one list. -/
theorem Book.Expires.unique {height : UInt64} {bs cs : List Batch} (h : b.Expires height bs)
    (h' : b.Expires height cs) : bs = cs :=
  Bytes.eq_of_ascending (·.contract.raw.val) h.ascending h'.ascending
    fun _ => h.mem_iff.trans h'.mem_iff.symm

/-! ## Outcomes -/

/-- What the outcome of a lifecycle call needs of a book: the administrator, and at the end of a
block the height and the batches. -/
structure Call.Sees (c : Call) (b b' : Book) : Prop where
  admin : b'.config.map (·.admin) = b.config.map (·.admin)
  block : ∀ height, c = .hostEvent (.endBlock height) →
    b'.height = b.height ∧ b'.batch = b.batch

theorem Outcome.of_sees (outcome : Outcome b c r ds) (lifecycle : c.InLifecycle)
    (sees : c.Sees b b') : Outcome b' c r ds := by
  cases lifecycle with
  | hostEvent event =>
      cases outcome with
      | endBlock rises expires =>
          obtain ⟨height, batch⟩ := sees.block _ rfl
          exact .endBlock (height ▸ rises) ⟨batch ▸ expires.mem_iff, expires.ascending⟩
      | batchExecuted => exact .batchExecuted
  | cancelBatch =>
      cases outcome with
      | cancelBatch config admin =>
          have same := sees.admin
          rw [config, Option.map_some, Option.map_eq_some_iff] at same
          obtain ⟨config', found, own⟩ := same
          exact .cancelBatch found (admin.trans own.symm)
  | cancelSend =>
      cases outcome with
      | cancelSend own bare => exact .cancelSend own bare

/-- A lifecycle call comes to every outcome that the book admits. -/
theorem Call.InLifecycle.run_of_outcome (lifecycle : c.InLifecycle) (h : s.Keeps b)
    (sound : b.Sound) (outcome : Outcome b c r ds) (moves : Moves b ds b') :
    ∃ s', c.run s = (.ok r, s') ∧ s'.Keeps b' := by
  simp only [Call.run, run_atomic_eq_ok]
  cases lifecycle with
  | hostEvent event =>
      cases outcome with
      | @endBlock height now bs rises expires =>
          -- the run is known to end in some book, and the deeds lead to one only
          obtain ⟨_, cs, s', b₁, rfl, expires', done, keeps, moves'⟩ :=
            Bridge.run_endBlock h sound height
          obtain rfl := rises
          obtain rfl := expires.unique expires'
          obtain rfl := moves.unique moves'
          exact ⟨s', done, keeps⟩
      | @batchExecuted batch ts =>
          cases moves.of_single with
          | settle recorded opened kept =>
              obtain ⟨v, _, keeps, _⟩ :=
                Batch.run_execute (v := ⟨s, .unfunded ""⟩) h sound recorded opened kept
              exact ⟨v.store, (Bridge.run_batchExecuted_eq_ok h sound).mpr
                ⟨batch, ts, recorded, opened, kept, rfl, keeps⟩, keeps⟩
  | cancelBatch =>
      cases outcome with
      | @cancelBatch env caller batch config found admin =>
          cases moves.of_single with
          | disband recorded opened _ =>
              obtain ⟨s', _, keeps⟩ := Batch.run_returnToPool .cancelled h sound recorded opened
              exact ⟨s', (Bridge.run_cancelBatch_eq_ok h sound).mpr
                ⟨config, batch, found, admin, recorded, opened, rfl, keeps⟩, keeps⟩
  | cancelSend =>
      cases outcome with
      | @cancelSend env caller t own bare =>
          cases moves.of_single with
          | refund kept waits =>
              obtain ⟨s', keeps⟩ := Pool.exists_keeps_refund h sound kept
              exact ⟨s', (Bridge.run_cancelSend_eq_ok h sound).mpr
                ⟨t, kept, own, waits, bare, rfl, keeps⟩, keeps⟩

end BridgePool
