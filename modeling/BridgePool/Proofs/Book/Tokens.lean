import BridgePool.Proofs.Book.Moves
import BridgePool.Proofs.Spelling

/-!
# What deeds on one token leave of another

`Book.Alike` says that two books have the same of a token. A deed that takes in or pays for
transfers, or that makes or ends a batch, is about one token, and leaves the books alike for every
other one (`Move.alike`).
-/

namespace BridgePool

variable {b b' : Book} {d : Deed} {contract other : RawAddress}

/-- Two books have the same of a token: the records of its transfers and batches, and what the
ledger holds of it in any spelling. -/
structure Book.Alike (contract : RawAddress) (b b' : Book) : Prop where
  config : b'.config = b.config
  transfer : ∀ {id t}, t.token.contract.raw = contract →
    (b'.transfer id = some t ↔ b.transfer id = some t)
  batch : ∀ {n batch}, batch.contract.raw = contract →
    (b'.batch n = some batch ↔ b.batch n = some batch)
  locked : ∀ spelled : Address, spelled.raw = contract →
    b'.locked (Denom.ofContract spelled) = b.locked (Denom.ofContract spelled)

/-- The token that a deed is about. -/
def Deed.token? : Deed → Option RawAddress
  | .accept t => some t.token.contract.raw
  | .refund t => some t.token.contract.raw
  | .gather batch => some batch.contract.raw
  | .disband batch _ => some batch.contract.raw
  | .settle batch _ => some batch.contract.raw
  | _ => none

theorem Denom.ofContract_injective : Function.Injective ofContract := by
  intro a a' same
  have read := contract_ofContract a
  rw [same, contract_ofContract, Except.ok.injEq] at read
  exact read.symm

/-! ## Maps -/

section Maps

variable {κ α : Type} [DecidableEq κ] {f : κ → Option α} {i j : κ} {row : Option α} {x : α}

/-- Where neither the old nor the new entry counts, an update changes none of those that do. -/
theorem update_eq_some_of_own (own : α → Prop) (old : ∀ y, f i = some y → ¬ own y)
    (new : ∀ y, row = some y → ¬ own y) (mine : own x) :
    Function.update f i row j = some x ↔ f j = some x := by
  rw [Function.update_apply]
  split
  next same =>
    subst same
    exact iff_of_false (fun found => new x found mine) fun found => old x found mine
  next => rfl

end Maps

namespace Book

variable {ids : List UInt64} {state : TransferState} {id : UInt64} {t : Transfer}

/-- Records of other tokens that move leave those of the token alone. -/
theorem moved_eq_some_of_own
    (others : ∀ id ∈ ids, ∀ u, b.transfer id = some u → u.token.contract.raw ≠ contract)
    (own : t.token.contract.raw = contract) :
    b.moved ids state id = some t ↔ b.transfer id = some t := by
  by_cases mem : id ∈ ids
  · refine iff_of_false (fun found => ?_) fun found => others id mem t found own
    obtain ⟨u, kept, rfl⟩ := of_moved_of_mem found mem
    exact others id mem u kept own
  · rw [moved_of_not_mem mem]

/-- Records of other tokens that are dropped do too. -/
theorem without_eq_some_of_own
    (others : ∀ id ∈ ids, ∀ u, b.transfer id = some u → u.token.contract.raw ≠ contract)
    (own : t.token.contract.raw = contract) :
    b.without ids id = some t ↔ b.transfer id = some t := by
  rw [without_eq_some]
  exact and_iff_right_of_imp fun found mem => others id mem t found own

/-- The end of a batch of another token leaves the batches of the token alone. -/
theorem closing_eq_some_of_own {batch c : Batch} {state : BatchState} {n : UInt64}
    (recorded : b.batch batch.nonce = some batch) (apart : batch.contract.raw ≠ contract)
    (own : c.contract.raw = contract) :
    b.closing batch state n = some c ↔ b.batch n = some c := by
  refine update_eq_some_of_own (·.contract.raw = contract) ?_ ?_ own
  · rw [recorded]
    rintro _ ⟨⟩
    exact apart
  · rintro _ ⟨⟩
    exact apart

end Book

/-- A token of another contract has another denom, however either is spelled. -/
theorem Token.denom_ne {t : Token} {spelled : Address} (apart : t.contract.raw ≠ spelled.raw) :
    Denom.ofContract spelled ≠ t.denom := by
  intro same
  exact apart (congrArg Address.raw (Denom.ofContract_injective same)).symm

namespace Holdings

variable {l : Holdings} {paid denom : String} {ts : List Transfer}

/-- A payment in another denom leaves a row of the ledger alone. -/
theorem spend_of_ne (other : denom ≠ paid) (n : Nat) : l.spend paid n denom = l denom := by
  rw [spend, Function.update_of_ne other]

theorem spendAll_of_ne (others : ∀ t ∈ ts, denom ≠ t.token.denom) :
    l.spendAll ts denom = l denom := by
  induction ts generalizing l with
  | nil => rfl
  | cons t ts ih =>
      obtain ⟨first, rest⟩ := List.forall_mem_cons.mp others
      rw [spendAll_cons, ih rest, spend_of_ne first]

end Holdings

/-! ## Deeds -/

/-- The transfers of an open batch are of no other token. -/
theorem Book.Sound.others_of_open (sound : b.Sound) {batch : Batch} {n : UInt64}
    (recorded : b.batch n = some batch) (opened : batch.state = .open)
    (apart : batch.contract.raw ≠ other) :
    ∀ id ∈ batch.ids, ∀ t, b.transfer id = some t → t.token.contract.raw ≠ other := by
  intro id listed t kept
  obtain ⟨u, found, own⟩ := sound.open_kept recorded opened listed
  rw [kept, Option.some.injEq] at found
  exact found ▸ own ▸ apart

/-- A deed on one token leaves every other token alike. -/
theorem Move.alike (m : Move b d b') (sound : b.Sound) (about : d.token? = some contract)
    (apart : contract ≠ other) : b.Alike other b' := by
  cases m with
  | @accept t sum own_id _ _ _ _ _ =>
      obtain rfl := Option.some.inj about
      constructor
      case config => rfl
      case transfer =>
        intro id u own
        refine update_eq_some_of_own (·.token.contract.raw = other) ?_ ?_ own
        · rw [sound.not_kept_new own_id]
          exact nofun
        · rintro _ ⟨⟩
          exact apart
      case batch => exact fun _ => Iff.rfl
      case locked =>
        rintro spelled rfl
        dsimp only [Book.accept]
        rw [Function.update_of_ne (Token.denom_ne apart)]
  | @refund t kept _ =>
      obtain rfl := Option.some.inj about
      constructor
      case config => rfl
      case transfer =>
        intro id u own
        refine update_eq_some_of_own (·.token.contract.raw = other) ?_ nofun own
        rw [kept]
        rintro _ ⟨⟩
        exact apart
      case batch => exact fun _ => Iff.rfl
      case locked =>
        rintro spelled rfl
        dsimp only [Book.refund]
        rw [Holdings.spend_of_ne (Token.denom_ne apart)]
  | @gather batch _ _ _ _ _ gathers _ =>
      obtain rfl := Option.some.inj about
      constructor
      case config => rfl
      case transfer =>
        intro id u own
        -- a batch gathers from its own token
        refine Book.moved_eq_some_of_own (fun id listed t kept => ?_) own
        obtain ⟨t', kept', _, same⟩ := gathers.waiting sound.filed listed
        rw [kept, Option.some.injEq] at kept'
        rw [kept', same, ← gathers.own_contract sound.filed]
        exact apart
      case batch =>
        intro n c own
        refine update_eq_some_of_own (·.contract.raw = other) ?_ ?_ own
        · rw [gathers.new_batch sound.filed]
          exact nofun
        · rintro _ ⟨⟩
          exact apart
      case locked => exact fun _ _ => rfl
  | @disband batch state recorded opened _ =>
      obtain rfl := Option.some.inj about
      constructor
      case config => rfl
      case transfer =>
        exact fun own => Book.moved_eq_some_of_own (sound.others_of_open recorded opened apart) own
      case batch => exact fun own => Book.closing_eq_some_of_own recorded apart own
      case locked => exact fun _ _ => rfl
  | @settle batch ts recorded opened kept =>
      obtain rfl := Option.some.inj about
      have others := sound.others_of_open recorded opened apart
      constructor
      case config => rfl
      case transfer => exact fun own => Book.without_eq_some_of_own others own
      case batch => exact fun own => Book.closing_eq_some_of_own recorded apart own
      case locked =>
        rintro spelled rfl
        refine Holdings.spendAll_of_ne fun t mem => Token.denom_ne ?_
        obtain ⟨id, listed, found⟩ := Book.exists_id_of_mem kept mem
        exact others id listed t found
  | _ => cases about

end BridgePool
