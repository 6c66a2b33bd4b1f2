import BridgePool.Address.Kept
import BridgePool.Proofs.Hex
import BridgePool.Proofs.Spelling

/-!
# Addresses and their spellings

The spellings are the texts of `0x` and forty digits (`Address.Spells`): those are read, each as the
bytes that its digits write, and any other text is refused for the first thing that is wrong with it
(`AddressFault.Explains`). An address compares as its spelling in lower case does, which is the
spelling that its bytes give. A text and the bytes beside it belong together when they are those of
an address, and whatever is made from a text or from bytes is (`Address.spellingsExact`).
-/

namespace BridgePool

/-! ## What is read -/

/-- The texts of `0x` and forty digits of either case. -/
def Address.Spells (text : String) : Prop :=
  ∃ digits : List Char, text.toList = '0' :: 'x' :: digits ∧ digits.length = 40 ∧
    ∀ c ∈ digits, c ∈ Hex.alphabet

/-- The first thing that is wrong with a text that spells no address. -/
inductive AddressFault.Explains (text : String) : AddressFault → Prop where
  | empty (nothing : text = "") : Explains text .empty
  | unmarked (something : text ≠ "") (other : ¬ ['0', 'x'] <+: text.toList) :
      Explains text (.unmarked text)
  | notHex (marked : ['0', 'x'] <+: text.toList)
      (stray : ∃ c ∈ text.toList.drop 2, c ∉ Hex.alphabet) : Explains text (.notHex text)
  | wrongLength (marked : ['0', 'x'] <+: text.toList)
      (hex : ∀ c ∈ text.toList.drop 2, c ∈ Hex.alphabet) (length : text.utf8ByteSize ≠ 42) :
      Explains text (.wrongLength text)

/-- A type that is written as a text is read from a message that is such a text. -/
theorem Codec.ofText?_eq_some {α ε : Type} [Codec α] (f : String → Except ε α)
    (reads : ∀ j : Json, Codec.decode? j =
      match j with
      | .text text => (f text).toOption
      | _ => none)
    {message : String} {a : α} : Codec.ofText? message = some a ↔
      ∃ text, Json.parse? message = some (.text text) ∧ f text = .ok a := by
  have succeeds {x : Except ε α} : x.toOption = some a ↔ x = .ok a := by
    cases x <;> simp [Except.toOption]
  rw [Codec.ofText?, Option.bind_eq_some_iff]
  simp only [reads]
  constructor
  · rintro ⟨j, parsed, found⟩
    split at found
    next text => exact ⟨text, parsed, succeeds.mp found⟩
    next => cases found
  · rintro ⟨text, parsed, found⟩
    exact ⟨.text text, parsed, succeeds.mpr found⟩

/-- What is found unless there is a reason against it is refused for the reasons against it. -/
theorem eq_error_iff {α ε : Type} {x : Except ε α} {reason : ε → Prop} {fault : ε}
    (cases : (∃ a, x = .ok a) ∨ ∃ fault, reason fault)
    (refused : ∀ {fault}, reason fault → x = .error fault) : x = .error fault ↔ reason fault := by
  refine ⟨fun failed => ?_, refused⟩
  rcases cases with ⟨a, found⟩ | ⟨other, wrong⟩
  · cases found.symm.trans failed
  · obtain rfl := Except.error.inj ((refused wrong).symm.trans failed)
    exact wrong

namespace Address

variable {text : String} {a b : Address} {digits : List Char}

/-- A digit is a single byte, and so are the two characters before the digits. -/
theorem utf8ByteSize_of_marked (chars : text.toList = '0' :: 'x' :: digits)
    (hex : ∀ c ∈ digits, c ∈ Hex.alphabet) : text.utf8ByteSize = digits.length + 2 := by
  have single : ∀ c ∈ Hex.alphabet, c.utf8Size = 1 := Hex.forall_mem_alphabet (by decide)
  have size (c : Char) (cs : List Char) : (String.ofList (c :: cs)).utf8ByteSize =
      c.utf8Size + (String.ofList cs).utf8ByteSize := by
    rw [String.ofList_cons, String.utf8ByteSize_append, String.utf8ByteSize_singleton]
  have plain (cs : List Char) (all : ∀ c ∈ cs, c ∈ Hex.alphabet) :
      (String.ofList cs).utf8ByteSize = cs.length := by
    induction cs with
    | nil => rfl
    | cons c cs ih =>
        obtain ⟨first, rest⟩ := List.forall_mem_cons.mp all
        rw [size, ih rest, single c first, List.length_cons, Nat.add_comm]
  have mark : '0'.utf8Size + 'x'.utf8Size = 2 := by decide
  rw [← String.ofList_toList (s := text), chars, size, size, plain digits hex]
  omega

theorem exists_parse_iff : (∃ a, parse text = .ok a) ↔ Spells text := by
  simp only [parse_eq_ok]
  constructor
  · rintro ⟨a, rfl⟩
    exact ⟨a.digits, String.toList_ofList, a.length_digits,
      fun c mem => Hex.isDigit_iff.mp (a.hex_digits c mem)⟩
  · rintro ⟨digits, chars, length, hex⟩
    refine ⟨⟨digits, length, fun c mem => Hex.isDigit_iff.mpr (hex c mem)⟩, ?_⟩
    rw [spelling, ← chars, String.ofList_toList]

theorem parse_of_marked (chars : text.toList = '0' :: 'x' :: digits) : parse text =
    if hex : digits.all Hex.isDigit = true then
      if length : digits.length = 40 then .ok ⟨digits, length, List.all_eq_true.mp hex⟩
      else .error (.wrongLength text)
    else .error (.notHex text) := by
  rw [parse]
  split
  next nothing => cases chars.symm.trans nothing
  next digits' chars' =>
    obtain rfl : digits' = digits := by simpa using chars'.symm.trans chars
    rfl
  next other => exact absurd chars (other digits)

theorem prefix_iff : ['0', 'x'] <+: text.toList ↔ ∃ digits, text.toList = '0' :: 'x' :: digits :=
  exists_congr fun _ => eq_comm

/-- What is wrong with a text is why it is refused. -/
theorem parse_of_explains {fault : AddressFault} (wrong : fault.Explains text) :
    parse text = .error fault := by
  cases wrong with
  | empty nothing => rw [nothing]; rfl
  | unmarked something other =>
      rw [parse]
      split
      next nothing => exact absurd (String.toList_eq_nil_iff.mp nothing) something
      next digits chars => exact absurd (prefix_iff.mpr ⟨digits, chars⟩) other
      next => rfl
  | notHex marked stray =>
      obtain ⟨digits, chars⟩ := prefix_iff.mp marked
      obtain ⟨c, mem, other⟩ := stray
      rw [chars] at mem
      have not_all : ¬ digits.all Hex.isDigit = true := fun all =>
        other (Hex.isDigit_iff.mp (List.all_eq_true.mp all c mem))
      rw [parse_of_marked chars, dif_neg not_all]
  | wrongLength marked hex length =>
      obtain ⟨digits, chars⟩ := prefix_iff.mp marked
      rw [chars] at hex
      have size := utf8ByteSize_of_marked chars hex
      have all : digits.all Hex.isDigit = true :=
        List.all_eq_true.mpr fun c mem => Hex.isDigit_iff.mpr (hex c mem)
      rw [parse_of_marked chars, dif_pos all, dif_neg (by omega)]

/-- A text is a spelling, or something is wrong with it. -/
theorem spells_or_explains (text : String) :
    Spells text ∨ ∃ fault : AddressFault, fault.Explains text := by
  by_cases something : text = ""
  · exact .inr ⟨_, .empty something⟩
  by_cases marked : ['0', 'x'] <+: text.toList
  · obtain ⟨digits, chars⟩ := prefix_iff.mp marked
    have behind : text.toList.drop 2 = digits := by rw [chars]; rfl
    by_cases hex : ∀ c ∈ digits, c ∈ Hex.alphabet
    · have size := utf8ByteSize_of_marked chars hex
      by_cases length : digits.length = 40
      · exact .inl ⟨digits, chars, length, hex⟩
      · exact .inr ⟨_, .wrongLength marked (behind ▸ hex) (by omega)⟩
    · push Not at hex
      exact .inr ⟨_, .notHex marked (behind ▸ hex)⟩
  · exact .inr ⟨_, .unmarked something marked⟩

theorem parse_eq_error {fault : AddressFault} :
    parse text = .error fault ↔ fault.Explains text :=
  eq_error_iff ((spells_or_explains text).imp_left exists_parse_iff.mpr) parse_of_explains

/-! ## What the digits write -/

theorem toBytes?_digits (a : Address) : Hex.toBytes? a.digits = some a.raw.val :=
  (Option.some_get _).symm

theorem drop_spelling (a : Address) : a.spelling.toList.drop 2 = a.digits := by
  rw [spelling, String.toList_ofList]
  rfl

/-- The bytes are those of the number that the digits spell. -/
theorem raw_eq (a : Address) : a.raw.val = Bytes.bigEndian 20 (Hex.number a.digits) := by
  have digits := Bytes.bigEndian_toNat a.raw.val
  rw [a.raw.property, Hex.toNat_of_toBytes? a.toBytes?_digits] at digits
  exact digits.symm

/-- The spelling in lower case. -/
def lower (a : Address) : String :=
  a.spelling.toLower

theorem toList_lower (a : Address) : a.lower.toList = '0' :: 'x' :: Hex.ofBytes a.raw.val := by
  have letters : a.lower.toList = a.spelling.toList.map Char.toLower := String.toList_map
  rw [letters, spelling, String.toList_ofList, Hex.ofBytes_of_toBytes? a.toBytes?_digits]
  rfl

theorem spelling_ofRaw (a : Address) : (ofRaw a.raw).spelling = a.lower := by
  rw [← String.toList_inj, toList_lower]
  exact String.toList_ofList

theorem same_iff : a.Same b ↔ a.lower = b.lower := by
  rw [← String.toList_inj, toList_lower, toList_lower]
  simp only [List.cons.injEq, true_and]
  exact ⟨fun same => by rw [same], fun same => Subtype.ext (Hex.ofBytes_injective same)⟩

theorem order_eq : order a b = compare a.lower b.lower := by
  have less : a.lower < b.lower ↔ a.raw.val < b.raw.val := by
    show a.lower.toList < b.lower.toList ↔ _
    rw [toList_lower, toList_lower]
    simp [Hex.ofBytes_lt_iff]
  have equal : a.lower = b.lower ↔ a.raw.val = b.raw.val := by
    rw [← same_iff, Same, Subtype.ext_iff]
  show compareOfLessAndEq _ _ = compareOfLessAndEq _ _
  simp only [compareOfLessAndEq, less, equal]

theorem message_iff {message : String} : Codec.ofText? message = some a ↔
    ∃ text, Json.parse? message = some (.text text) ∧ parse text = .ok a :=
  Codec.ofText?_eq_some parse (fun j => by cases j <;> rfl)

end Address

/-! ## Texts with their bytes -/

namespace KeptAddress

variable {k : KeptAddress}

/-- The ways in which a text comes to have bytes beside it. -/
inductive Made : KeptAddress → Prop where
  | ofText {text : String} {k : KeptAddress} (read : KeptAddress.ofText text = .ok k) : Made k
  | ofRaw (b : RawAddress) : Made (.ofRaw b)
  | zero : Made .zero
  | ofMessage {message : String} {k : KeptAddress} (read : Codec.ofText? message = some k) : Made k

theorem validate_eq_ok : k.validate = .ok () ↔ ∃ a : Address, k = a.kept := by
  constructor
  · intro valid
    rw [validate] at valid
    split at valid
    next a parsed =>
      split at valid
      next same => exact ⟨a, KeptAddress.ext (Address.parse_eq_ok.mp parsed).symm same.symm⟩
      next => cases valid
    next => cases valid
  · rintro ⟨a, rfl⟩
    rw [validate, Address.kept, Address.parse_spelling]
    exact if_pos rfl

theorem ofText_eq (text : String) : ofText text = (Address.parse text).map Address.kept := by
  rw [ofText]
  cases parsed : Address.parse text with
  | error fault => rfl
  | ok a =>
      obtain rfl := Address.parse_eq_ok.mp parsed
      rfl

theorem ofRaw_eq (b : RawAddress) : ofRaw b = (Address.ofRaw b).kept :=
  KeptAddress.ext rfl (Address.raw_ofRaw b).symm

theorem exists_kept_of_ofText {text : String} (read : ofText text = .ok k) :
    ∃ a : Address, k = a.kept := by
  rw [ofText_eq] at read
  cases parsed : Address.parse text with
  | error fault => rw [parsed] at read; cases read
  | ok a => rw [parsed] at read; exact ⟨a, (Except.ok.inj read).symm⟩

/-- However text and bytes came together, they belong together. -/
theorem Made.exists_kept (made : k.Made) : ∃ a : Address, k = a.kept := by
  cases made with
  | ofText read => exact exists_kept_of_ofText read
  | ofRaw b => exact ⟨_, ofRaw_eq b⟩
  | zero => exact ⟨_, ofRaw_eq _⟩
  | ofMessage read =>
      obtain ⟨_, _, made⟩ := (Codec.ofText?_eq_some KeptAddress.ofText
        (fun j => by cases j <;> rfl)).mp read
      exact exists_kept_of_ofText made

end KeptAddress

/-! ## Exact spellings -/

/-- Which texts are addresses, which bytes they stand for, and how they compare. -/
structure Address.SpellingsExact : Prop where
  /-- A text is read when it is `0x` and forty digits. -/
  parse_iff : ∀ text, (∃ a, parse text = .ok a) ↔ Spells text
  /-- Any other text is refused, for the first thing that is wrong with it. -/
  refused_iff : ∀ text fault, parse text = .error fault ↔ AddressFault.Explains text fault
  /-- So it is with messages. -/
  message_iff : ∀ (message : String) (a : Address), Codec.ofText? message = some a ↔
    ∃ text, Json.parse? message = some (.text text) ∧ parse text = .ok a
  /-- The digits of a spelling always fill twenty bytes. -/
  filled : ∀ text, Spells text → ∃ b, Hex.toBytes? (text.toList.drop 2) = some b ∧ b.length = 20
  /-- The text is kept as it was given, and the bytes are the number that its digits spell. -/
  read : ∀ text a, parse text = .ok a → a.spelling = text ∧
    a.raw.val = Bytes.bigEndian 20 (Hex.number (text.toList.drop 2))
  /-- A text is kept with the bytes of its address. -/
  kept : ∀ text, KeptAddress.ofText text = (parse text).map Address.kept
  /-- However text and bytes came together, they pass when they are checked again. -/
  made_valid : ∀ k : KeptAddress, k.Made → k.validate = .ok ()
  /-- Nothing passes but the text and the bytes of an address. -/
  valid_iff : ∀ k : KeptAddress, k.validate = .ok () ↔ ∃ a : Address, k = a.kept
  /-- The bytes give the spelling back in lower case. -/
  lower : ∀ a : Address, (ofRaw a.raw).spelling = a.spelling.toLower ∧
    KeptAddress.ofRaw a.raw = ⟨a.spelling.toLower, a.raw⟩
  /-- Addresses are the same when their spellings are, but for the case. -/
  same_iff : ∀ a b : Address, a.Same b ↔ a.spelling.toLower = b.spelling.toLower
  /-- Addresses are in the order of their spellings in lower case. -/
  order_eq : ∀ a b : Address, order a b = compare a.spelling.toLower b.spelling.toLower

/-- Exactly the texts of `0x` and forty digits are addresses, and they compare as these texts do in
lower case. -/
theorem Address.spellingsExact : SpellingsExact where
  parse_iff _ := exists_parse_iff
  refused_iff _ _ := parse_eq_error
  message_iff _ _ := Address.message_iff
  filled text spelled := by
    obtain ⟨a, parsed⟩ := exists_parse_iff.mpr spelled
    obtain rfl := parse_eq_ok.mp parsed
    exact ⟨a.raw.val, by rw [drop_spelling, toBytes?_digits], a.raw.property⟩
  read text a parsed := by
    obtain rfl := parse_eq_ok.mp parsed
    exact ⟨rfl, by rw [drop_spelling, ← raw_eq]⟩
  kept := KeptAddress.ofText_eq
  made_valid _ made := KeptAddress.validate_eq_ok.mpr made.exists_kept
  valid_iff _ := KeptAddress.validate_eq_ok
  lower a := ⟨spelling_ofRaw a, KeptAddress.ext (spelling_ofRaw a) rfl⟩
  same_iff _ _ := Address.same_iff
  order_eq _ _ := Address.order_eq

end BridgePool
