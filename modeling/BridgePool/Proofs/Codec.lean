import BridgePool.Batch
import BridgePool.Config
import BridgePool.Proofs.Json.RoundTrip
import BridgePool.Transfer

/-!
# Records survive being written

A codec is lawful when every value is read back from its JSON form and that form is one the
reader takes (`LawfulCodec`). Then the bytes that the store keeps of a value give back that value
(`Codec.ofBytes?_bytes`) and no other (`Codec.bytes_injective`).

Every type that the store keeps has a lawful codec.
-/

namespace BridgePool

/-- A codec whose JSON forms give back their values and nest at most so deep. -/
class LawfulCodec (α : Type) [Codec α] (depth : outParam Nat) : Prop where
  decode?_encode (a : α) : Codec.decode? (Codec.encode a) = some a
  readable (a : α) : Json.Readable depth (Codec.encode a)
  shallow : depth ≤ Json.maxDepth := by decide

/-- A codec that writes no value as the absent one. -/
class PresentCodec (α : Type) [Codec α] : Prop where
  encode_ne_null (a : α) : Codec.encode a ≠ Json.null

attribute [simp] LawfulCodec.decode?_encode

namespace Codec

variable {α : Type} [Codec α] {depth : Nat} [LawfulCodec α depth]

include depth

@[simp] theorem readable_encode {more : Nat} (le : depth ≤ more) (a : α) :
    Json.Readable more (encode a) :=
  (LawfulCodec.readable a).mono le

/-- The text of a value gives it back. -/
@[simp] theorem ofText?_text (a : α) : ofText? (text a) = some a := by
  have shallow := LawfulCodec.shallow (α := α)
  rw [ofText?, text, Json.parse?_toText (readable_encode shallow a), Option.bind_some,
    LawfulCodec.decode?_encode]

/-- The bytes of a value give it back. -/
@[simp] theorem ofBytes?_bytes (a : α) : ofBytes? (bytes a) = some a := by
  rw [ofBytes?, bytes, ofUtf8?_utf8, Option.bind_some, ofText?_text]

/-- Two values with the same bytes are the same. -/
theorem bytes_injective {a b : α} (same : bytes a = bytes b) : a = b := by
  have read := ofBytes?_bytes b
  rw [← same, ofBytes?_bytes] at read
  exact Option.some.inj read

/-- A row that may be missing is the bytes of a value when the value may be. -/
theorem map_bytes_eq_some {row : Option α} {a : α} :
    row.map bytes = some (bytes a) ↔ row = some a := by
  rw [← Option.map_some]
  exact (Option.map_injective fun _ _ => bytes_injective).eq_iff

end Codec

/-! ## Plain values -/

instance : LawfulCodec String 0 where
  decode?_encode _ := rfl
  readable _ := .text

instance : LawfulCodec Bool 0 where
  decode?_encode b := by cases b <;> rfl
  readable b := by cases b <;> exact .word (by decide)

theorem Decimal.plain_text (n : Nat) : Json.Plain (text n) := by
  constructor
  · rw [text, String.toList_ofList]
    exact digits_ne_nil n
  · intro c hc
    rw [text, String.toList_ofList] at hc
    simp [Char.isAlphanum, isDigit_of_mem_digits hc]

theorem Codec.natural?_text (n : Nat) : natural? (.word (Decimal.text n)) = some n := by
  rw [natural?, Decimal.text, String.toList_ofList, Decimal.canonical?_digits]

instance : LawfulCodec UInt32 0 where
  decode?_encode n := by
    show ((Codec.natural? (.word (Decimal.text n.toNat))).bind _) = _
    rw [Codec.natural?_text, Option.bind_some, if_pos n.toNat_lt, UInt32.ofNat_toNat]
  readable n := .word (Decimal.plain_text n.toNat)

instance : LawfulCodec UInt64 0 where
  decode?_encode n := by
    show ((Codec.natural? (.word (Decimal.text n.toNat))).bind _) = _
    rw [Codec.natural?_text, Option.bind_some, if_pos n.toNat_lt, UInt64.ofNat_toNat]
  readable n := .word (Decimal.plain_text n.toNat)

instance {bits : Nat} : LawfulCodec (Amount bits) 0 where
  decode?_encode a := by
    show (Decimal.signed? (Decimal.text a.val).toList).bind _ = _
    rw [Decimal.text, String.toList_ofList, Decimal.signed?_digits, Option.bind_some,
      Amount.ofNat?_val]
  readable _ := .text

instance {α : Type} [Codec α] {depth : Nat} [LawfulCodec α depth] [PresentCodec α] :
    LawfulCodec (Option α) depth where
  decode?_encode a := by
    cases a with
    | none => rfl
    | some a =>
        have present := PresentCodec.encode_ne_null a
        have read := LawfulCodec.decode?_encode a
        rw [Codec.instOption]
        dsimp only
        split
        next w form =>
          rw [form] at present read
          have other : w ≠ "null" := fun e => present (e ▸ rfl)
          rw [if_neg other, read, Option.map_some]
        next => rw [read, Option.map_some]
  readable a := by
    cases a with
    | none => exact .word (by decide)
    | some a => exact LawfulCodec.readable a
  shallow := LawfulCodec.shallow (α := α)

instance : LawfulCodec (List UInt64) 1 where
  decode?_encode as := by
    have all : ∀ as : List UInt64, (as.map Codec.encode).mapM Codec.decode? = some as := by
      intro as
      induction as with
      | nil => rfl
      | cons a as ih => simp [ih]
    show Codec.decodeNumbers? (Codec.encodeList as) = some as
    cases as with
    | nil => rfl
    | cons a as =>
        have spelled : Decimal.text a.toNat ≠ "" := fun empty => by
          have letters := (Decimal.plain_text a.toNat).1
          rw [empty] at letters
          exact letters rfl
        rw [Codec.encodeList, Codec.decodeNumbers?]
        · exact all (a :: as)
        · intro items opened
          exact spelled (Json.word.inj (List.cons.inj opened).1)
  readable as := by
    refine .list fun j hj => ?_
    obtain ⟨a, _, rfl⟩ := List.mem_map.mp hj
    exact LawfulCodec.readable a

instance : LawfulCodec Address 0 where
  decode?_encode a := by
    show (Address.parse a.spelling).toOption = some a
    rw [Address.parse_spelling]
    rfl
  readable _ := .text

instance : PresentCodec Address where
  encode_ne_null _ := nofun

/-! ## Records -/

theorem Json.closedFields?_record {names : List String} {fields : List (String × Json)}
    (same : fields.map Prod.fst = names) (distinct : names.Nodup) :
    closedFields? names (.record fields) = some fields := by
  subst same
  simp [closedFields?, distinct]

/-- A field is the first one, or it is among the others. -/
theorem lookup_named_cons {α : Type} (key name : String) (value : α) (fields : List (String × α)) :
    List.lookup name ((key, value) :: fields) =
      if name = key then some value else List.lookup name fields := by
  rw [List.lookup_cons]
  by_cases same : name = key
  · rw [beq_iff_eq.mpr same, if_pos same]
  · rw [beq_eq_false_iff_ne.mpr same, if_neg same]

attribute [local simp] Json.closedFields?_record Json.required? Json.optional? lookup_named_cons

instance : LawfulCodec OptionalAddress 1 where
  decode?_encode a := by
    rw [OptionalAddress.instCodec]
    simp
  readable a := .record (by simp)

instance : LawfulCodec Token 1 where
  decode?_encode t := by
    rw [Token.instCodec]
    simp
  readable t := .record (by simp)

instance : LawfulCodec TransferState 2 where
  decode?_encode s := by
    rw [TransferState.instCodec]
    cases s with
    | unbatched => rfl
    | inBatch nonce => simp [Json.variant, Json.variant?, Json.variantField?]
  readable s := by
    cases s with
    | unbatched => exact .text
    | inBatch nonce =>
        refine .record ?_
        simp only [List.mem_singleton, forall_eq]
        exact .record (by simp)

instance : LawfulCodec Transfer 3 where
  decode?_encode t := by
    rw [Transfer.instCodec]
    simp
  readable t := .record (by simp)

instance : LawfulCodec BatchState 0 where
  decode?_encode s := by cases s <;> decide
  readable _ := .text

instance : LawfulCodec Batch 2 where
  decode?_encode b := by
    rw [Batch.instCodec]
    simp
  readable b := .record (by simp)

instance : LawfulCodec Instant 0 where
  decode?_encode t := by
    show (Decimal.signed? (Decimal.text t.nanos.toNat).toList).bind _ = _
    rw [Decimal.text, String.toList_ofList, Decimal.signed?_digits, Option.bind_some,
      if_pos t.nanos.toNat_lt, UInt64.ofNat_toNat]
  readable _ := .text

instance : LawfulCodec Config 2 where
  decode?_encode c := by
    rw [Config.instCodec]
    simp [Config.fields]
  readable c := .record (by simp [Config.fields])

instance : LawfulCodec Proposal 1 where
  decode?_encode p := by
    rw [instCodecProposal]
    simp
  readable p := .record (by simp)

instance : LawfulCodec Release 1 where
  decode?_encode r := by
    rw [instCodecRelease]
    simp
  readable r := .record (by simp)

end BridgePool
