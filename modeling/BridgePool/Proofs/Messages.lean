import BridgePool.Message
import BridgePool.Pool.Fees
import BridgePool.Proofs.Codec

/-!
# Messages survive being written

Set-ups, commands, events of the host, queries and the totals of a forecast have lawful codecs as
the records of the store have. So everything that is written is read back as it was, to the
spelling of every address (`Codec.faithful`).

* `Codec.Lossless` — the text and the bytes of every value of a type give it back.
-/

namespace BridgePool

attribute [local simp] Json.closedFields?_record Json.required? Json.optional? lookup_named_cons

/-! ## Parts of messages -/

instance : PresentCodec String where
  encode_ne_null _ := nofun

theorem Decimal.text_ne_null (n : Nat) : text n ≠ "null" := by
  intro same
  have read := Codec.natural?_text n
  have letters : Codec.natural? (.word "null") = none := by decide
  rw [same, letters] at read
  cases read

instance : PresentCodec UInt32 where
  encode_ne_null n := fun same => Decimal.text_ne_null n.toNat (Json.word.inj same)

instance : PresentCodec UInt64 where
  encode_ne_null n := fun same => Decimal.text_ne_null n.toNat (Json.word.inj same)

instance : LawfulCodec Bytes 0 where
  decode?_encode b := by
    show Base64.decode? (String.ofList (Base64.encode b)).toList = _
    rw [String.toList_ofList, Base64.decode?_encode]
  readable _ := .text

instance : PresentCodec Bytes where
  encode_ne_null _ := nofun

instance : LawfulCodec Coin 1 where
  decode?_encode c := by
    rw [Coin.instCodec]
    simp [Json.openFields?]
  readable c := .record (by simp)

instance : LawfulCodec FeeTotal 1 where
  decode?_encode f := by
    rw [FeeTotal.instCodec]
    simp
  readable f := .record (by simp)

/-! ## Messages -/

instance : LawfulCodec Setup 1 where
  decode?_encode m := by
    rw [instCodecSetup]
    simp
  readable m := .record (by simp)

/-- A variant is as deep as its fields and the two records around them. -/
theorem Json.readable_variant {depth : Nat} {name : String} {fields : List (String × Json)}
    (inner : ∀ f ∈ fields, Readable depth f.2) : Readable (depth + 2) (variant name fields) :=
  .record (by simpa using .record inner)

attribute [local simp] Json.variant Json.variant? Json.variantField? Json.emptyVariant?

instance : LawfulCodec Command 3 where
  decode?_encode c := by
    rw [instCodecCommand]
    cases c <;> simp
  readable c := by
    rw [instCodecCommand]
    cases c <;> exact Json.readable_variant (by simp)

instance : LawfulCodec HostEvent 2 where
  decode?_encode e := by
    rw [instCodecHostEvent]
    cases e <;> simp
  readable e := by
    rw [instCodecHostEvent]
    cases e <;> exact Json.readable_variant (by simp)

instance : LawfulCodec Query 2 where
  decode?_encode q := by
    rw [instCodecQuery]
    cases q <;> simp
  readable q := by
    rw [instCodecQuery]
    cases q <;> exact Json.readable_variant (by simp)

/-! ## What the codec keeps -/

namespace Codec

/-- A type whose values survive being written. -/
structure Lossless (α : Type) [Codec α] : Prop where
  /-- The text of a value gives it back. -/
  ofText?_text (a : α) : ofText? (text a) = some a
  /-- The bytes of a value give it back. -/
  ofBytes?_bytes (a : α) : ofBytes? (bytes a) = some a
  /-- What a text stands for, written once more, stands for the same. -/
  ofText?_rewritten {s : String} {a : α} (read : ofText? s = some a) :
    (ofText? (text a) : Option α) = ofText? s

theorem Lossless.of_lawful (α : Type) [Codec α] {depth : Nat} [LawfulCodec α depth] :
    Lossless α where
  ofText?_text := Codec.ofText?_text
  ofBytes?_bytes := Codec.ofBytes?_bytes
  ofText?_rewritten read := by rw [read, Codec.ofText?_text]

/-- Which records and messages survive being written, and what a store answers after a save.
Values are compared with the spelling of their addresses, not only with the bytes. -/
structure Faithful : Prop where
  address : Lossless Address
  optionalAddress : Lossless OptionalAddress
  token : Lossless Token
  transferState : Lossless TransferState
  batchState : Lossless BatchState
  transfer : Lossless Transfer
  batch : Lossless Batch
  config : Lossless Config
  proposal : Lossless Proposal
  feeTotal : Lossless FeeTotal
  setup : Lossless Setup
  command : Lossless Command
  hostEvent : Lossless HostEvent
  query : Lossless Query
  /-- A store answers with the transfer that was saved last under an id. -/
  savedTransfer (s : Store) (t : Transfer) : (s.saveTransfer t).transfer? t.id = .ok (some t)
  /-- A store answers with the batch that was saved last under a nonce. -/
  savedBatch (s : Store) (b : Batch) : (s.saveBatch b).batch? b.nonce = .ok (some b)

end Codec

theorem Store.load?_save {α : Type} [Codec α] {depth : Nat} [LawfulCodec α depth] (s : Store)
    (c : Cell) (a : α) : (s.save c a).load? c = .ok (some a) := by
  rw [load?, save, get?_insert, if_pos rfl]
  simp only [Codec.ofBytes?_bytes]

/-- Records and messages of every kind survive being written. -/
theorem Codec.faithful : Faithful where
  address := .of_lawful _
  optionalAddress := .of_lawful _
  token := .of_lawful _
  transferState := .of_lawful _
  batchState := .of_lawful _
  transfer := .of_lawful _
  batch := .of_lawful _
  config := .of_lawful _
  proposal := .of_lawful _
  feeTotal := .of_lawful _
  setup := .of_lawful _
  command := .of_lawful _
  hostEvent := .of_lawful _
  query := .of_lawful _
  savedTransfer s t := s.load?_save (.transfer t.id) t
  savedBatch s b := s.load?_save (.batch b.nonce) b

end BridgePool
