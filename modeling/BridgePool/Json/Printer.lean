import BridgePool.Json.Basic
import BridgePool.Text.Hex

/-!
# Writing JSON

`Json.render` writes a value without blanks, fields in their order. Inside a text only the quote,
the backslash and the characters below U+0020 are escaped: by their short escape where one
exists, and else as `\u00XX` in upper-case digits.
-/

namespace BridgePool.Json

/-- One character of a text as it is written between the quotes. -/
def escape (c : Char) : List Char :=
  if c = '"' then ['\\', '"']
  else if c = '\\' then ['\\', '\\']
  else if c.toNat = 8 then ['\\', 'b']
  else if c = '\t' then ['\\', 't']
  else if c = '\n' then ['\\', 'n']
  else if c.toNat = 12 then ['\\', 'f']
  else if c = '\r' then ['\\', 'r']
  else if isControl c then
    ['\\', 'u', '0', '0', Hex.digit (c.toNat / 16), (Hex.digit (c.toNat % 16)).toUpper]
  else [c]

/-- A text between quotes. -/
def quote (s : String) : List Char :=
  '"' :: s.toList.flatMap escape ++ ['"']

mutual

/-- The written form of a value. -/
def render : Json → List Char
  | .word w => w.toList
  | .text s => quote s
  | .list items => '[' :: renderItems items ++ [']']
  | .record fields => '{' :: renderFields fields ++ ['}']

/-- The items of a list, separated by commas. -/
def renderItems : List Json → List Char
  | [] => []
  | [item] => render item
  | item :: next :: rest => render item ++ ',' :: renderItems (next :: rest)

/-- The fields of a record, separated by commas, each name before its value. -/
def renderFields : List (String × Json) → List Char
  | [] => []
  | [(name, value)] => quote name ++ ':' :: render value
  | (name, value) :: next :: rest =>
    quote name ++ ':' :: render value ++ ',' :: renderFields (next :: rest)

end

/-- The written form of a value as a string. -/
def toText (j : Json) : String :=
  String.ofList j.render

end BridgePool.Json
