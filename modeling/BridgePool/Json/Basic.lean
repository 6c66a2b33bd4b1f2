/-!
# JSON values

A `Json` value is what a reader that does not know the wanted type can tell: texts, lists and
records by their opening character, and every other value as the bare word up to the next comma
or closing bracket. Numbers, truth values and `null` are bare words; what a word means is for the
type that reads it. The empty word stands for nothing at all before the first comma of a list.
-/

namespace BridgePool

/-- A JSON value. The fields of a record keep their order, and a name may repeat. -/
inductive Json where
  | word (text : String)
  | text (s : String)
  | list (items : List Json)
  | record (fields : List (String × Json))

namespace Json

/-- The word for an absent value. -/
def null : Json :=
  .word "null"

/-- Space, tab, carriage return and line feed may stand between any two tokens. -/
def isBlank (c : Char) : Bool :=
  c = ' ' || c = '\t' || c = '\r' || c = '\n'

/-- The characters below U+0020. -/
def isControl (c : Char) : Bool :=
  c.toNat < 32

/-- The characters that end a bare word. -/
def isDelimiter (c : Char) : Bool :=
  c = ',' || c = '}' || c = ']'

end Json

end BridgePool
