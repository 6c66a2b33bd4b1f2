import BridgePool.Json.Quoted

/-!
# Reading JSON

`Json.parse?` reads one value and nothing after it. Each reader takes the remaining text and
answers what it read with what is left.

* Blanks are allowed around every token.
* A bare word runs up to the next delimiter, whatever it holds, and loses its trailing blanks.
* A list may open with a comma, as if an empty word stood before it. Such a list is slack: one
  comma may be missing between two of its elements.
* Lists and records nest at most `maxDepth` deep, or as deep as `Json.parseWithin?` is told.
-/

namespace BridgePool.Json

/-- How deep lists and records may nest. -/
def maxDepth : Nat := 127

/-- Drops leading blanks. -/
def skipBlank (cs : List Char) : List Char :=
  cs.dropWhile isBlank

/-- A bare word, without the blanks that end it. -/
def bareWord (cs : List Char) : Json × List Char :=
  let body := cs.takeWhile (! isDelimiter ·)
  (.word (String.ofList (body.reverse.dropWhile isBlank).reverse), cs.dropWhile (! isDelimiter ·))

/-- A value that holds no other value. -/
def scalar? (cs : List Char) : Option (Json × List Char) :=
  match skipBlank cs with
  | [] => none
  | c :: rest =>
    if c = '"' then (text? (c :: rest)).map fun (s, rest) => (.text s, rest)
    else if isDelimiter c || c = '[' || c = '{' then none
    else some (bareWord (c :: rest))

/-- One or more elements separated by commas, up to and with the closing character; in a `slack`
sequence one comma may be missing. At most `fuel` elements are read; every element takes at least
one character. -/
def elements {α : Type} (element? : List Char → Option (α × List Char)) (close : Char) :
    (slack : Bool) → (fuel : Nat) → List Char → Option (List α × List Char)
  | _, 0, _ => none
  | slack, fuel + 1, cs =>
    match element? cs with
    | none => none
    | some (a, rest) =>
      match skipBlank rest with
      | [] => none
      | c :: rest =>
        if c = close then some ([a], rest)
        else if c = ',' then
          (elements element? close slack fuel rest).map fun (as, r) => (a :: as, r)
        else if slack then
          (elements element? close false fuel (c :: rest)).map fun (as, r) => (a :: as, r)
        else none

/-- The elements between an opening bracket and its closing one. -/
def enclosed {α : Type} (element? : List Char → Option (α × List Char)) (close : Char)
    (cs : List Char) : Option (List α × List Char) :=
  match skipBlank cs with
  | [] => none
  | c :: rest =>
    if c = close then some ([], rest)
    else elements element? close false (rest.length + 1) (c :: rest)

/-- The items of a list after its opening bracket. -/
def listItems (value? : List Char → Option (Json × List Char)) (cs : List Char) :
    Option (List Json × List Char) :=
  match skipBlank cs with
  | ',' :: rest =>
    (elements value? ']' true rest.length rest).map fun (items, r) => (.word "" :: items, r)
  | cs => enclosed value? ']' cs

/-- A name, a colon and a value. -/
def field? (value? : List Char → Option (Json × List Char)) (cs : List Char) :
    Option ((String × Json) × List Char) := do
  let (name, rest) ← text? (skipBlank cs)
  match skipBlank rest with
  | ':' :: rest =>
    let (value, rest) ← value? rest
    return ((name, value), rest)
  | _ => none

/-- A value in which lists and records nest at most `depth` deep. -/
def value? : (depth : Nat) → List Char → Option (Json × List Char)
  | 0, cs => scalar? cs
  | depth + 1, cs =>
    match skipBlank cs with
    | '[' :: rest => (listItems (value? depth) rest).map fun (items, r) => (.list items, r)
    | '{' :: rest =>
      (enclosed (field? (value? depth)) '}' rest).map fun (fields, r) => (.record fields, r)
    | _ => scalar? cs

/-- The value that the whole text holds, if lists and records nest at most `depth` deep in it. -/
def parseWithin? (depth : Nat) (s : String) : Option Json :=
  match value? depth s.toList with
  | some (j, rest) => if skipBlank rest = [] then some j else none
  | none => none

/-- The value that the whole text holds. -/
def parse? (s : String) : Option Json :=
  parseWithin? maxDepth s

end BridgePool.Json
