import BridgePool.Amount
import BridgePool.Json.Parser
import BridgePool.Json.Printer
import BridgePool.Text.Base64
import BridgePool.Text.Decimal
import BridgePool.Text.Utf8

/-!
# Values as JSON

`Codec α` pairs the JSON form of the values of `α` with the reading of that form; `Codec.text`
and `Codec.ofText?` go all the way to text, `Codec.bytes` and `Codec.ofBytes?` to the UTF-8 of
that text, which is what the store keeps.

Machine words are bare numbers in their shortest spelling. Amounts are decimal texts: they may
be wider than a reader's numbers. Byte strings are Base64 texts. An absent value is `null`.

Records are closed: a field that is unknown or given twice is refused, and a field that is
missing must be optional. Variants with fields are records of exactly one field, named for the
variant; variants without are texts.
-/

namespace BridgePool

/-- The JSON form of the values of a type. -/
class Codec (α : Type) where
  /-- The form in which a value is written. -/
  encode : α → Json
  /-- The value of a form, if it has one. -/
  decode? : Json → Option α

namespace Codec

variable {α : Type} [Codec α]

/-- The written form of a value. -/
def text (a : α) : String :=
  (encode a).toText

/-- The value a text stands for. -/
def ofText? (s : String) : Option α :=
  (Json.parse? s).bind decode?

/-- The bytes of the written form. -/
def bytes (a : α) : Bytes :=
  utf8 (text a)

/-- The value that bytes stand for. -/
def ofBytes? (b : Bytes) : Option α :=
  (ofUtf8? b).bind ofText?

/-! ## Plain values -/

instance : Codec String where
  encode s := .text s
  decode?
    | .text s => some s
    | _ => none

instance : Codec Bool where
  encode b := .word (if b then "true" else "false")
  decode?
    | .word w => if w = "true" then some true else if w = "false" then some false else none
    | _ => none

/-- The number that a bare word spells. -/
def natural? : Json → Option Nat
  | .word w => Decimal.canonical? w.toList
  | _ => none

instance : Codec UInt32 where
  encode n := .word (Decimal.text n.toNat)
  decode? j := (natural? j).bind fun n => if n < UInt32.size then some (UInt32.ofNat n) else none

instance : Codec UInt64 where
  encode n := .word (Decimal.text n.toNat)
  decode? j := (natural? j).bind fun n => if n < UInt64.size then some (UInt64.ofNat n) else none

instance {bits : Nat} : Codec (Amount bits) where
  encode a := .text (Decimal.text a.val)
  decode?
    | .text s => (Decimal.signed? s.toList).bind (Amount.ofNat? bits)
    | _ => none

instance : Codec Bytes where
  encode b := .text (String.ofList (Base64.encode b))
  decode?
    | .text s => Base64.decode? s.toList
    | _ => none

instance : Codec (Option α) where
  encode
    | none => Json.null
    | some a => encode a
  decode?
    | .word w => if w = "null" then some none else (decode? (.word w)).map some
    | j => (decode? j).map some

/-- A list of values, in order. -/
def encodeList (as : List α) : Json :=
  .list (as.map encode)

/-- The number that leads a word, and what follows it. A zero leads nothing but itself. -/
def leadingNumber : List Char → List Char × List Char
  | '0' :: rest => (['0'], rest)
  | cs => (cs.takeWhile Char.isDigit, cs.dropWhile Char.isDigit)

/-- Splits the first word that goes on after its number into that number and the rest of it. -/
def splitNumbers : List Json → List Json
  | .word w :: rest =>
    match leadingNumber w.toList with
    | (_, []) => .word w :: splitNumbers rest
    | (number, more) =>
      .word (String.ofList number) :: .word (String.ofList (Json.skipBlank more)) :: rest
  | items => items

/-- The numbers of a list in order. In a list that opens with a comma one more comma may be
missing, so that one word holds two numbers. -/
def decodeNumbers? : Json → Option (List α)
  | .list (.word "" :: items) => (splitNumbers items).mapM decode?
  | .list items => items.mapM decode?
  | _ => none

instance : Codec (List UInt64) where
  encode := encodeList
  decode? := decodeNumbers?

end Codec

namespace Json

/-- The fields of a closed record: none but the given names, and none twice. -/
def closedFields? (names : List String) : Json → Option (List (String × Json))
  | .record fields =>
    if (fields.map Prod.fst).all (· ∈ names) ∧ (fields.map Prod.fst).Nodup then some fields
    else none
  | _ => none

/-- The fields of an open record: the given names, none twice; other fields are passed over. -/
def openFields? (names : List String) : Json → Option (List (String × Json))
  | .record fields =>
    let known := fields.filter (·.1 ∈ names)
    if (known.map Prod.fst).Nodup then some known else none
  | _ => none

/-- The only field of a record: a variant's name and its contents. -/
def variant? : Json → Option (String × Json)
  | .record [field] => some field
  | _ => none

/-- The value of a field that must be there. -/
def required? {α : Type} [Codec α] (fields : List (String × Json)) (name : String) : Option α :=
  (fields.lookup name).bind Codec.decode?

/-- The value of a field that may be missing. -/
def optional? {α : Type} [Codec α] (fields : List (String × Json)) (name : String) :
    Option (Option α) :=
  match fields.lookup name with
  | none => some none
  | some value => Codec.decode? value

/-- The contents of a variant with one field that must be there. -/
def variantField? {α : Type} [Codec α] (name : String) (contents : Json) : Option α := do
  let fields ← closedFields? [name] contents
  required? fields name

/-- The contents of a variant without fields. -/
def emptyVariant? (contents : Json) : Option Unit := do
  let _ ← closedFields? [] contents

/-- A variant with its fields. -/
def variant (name : String) (fields : List (String × Json)) : Json :=
  .record [(name, .record fields)]

end Json

end BridgePool
