import UrlRouting.Url.Percent

/-! # Query strings

Lists of named values in the form encoding: `name=value` pieces joined by `&`, a space written
`+`.

* `encode` writes a list of pairs in its order, repeated and empty names included.
* `decode` reads the encoding: split at each `&`, each piece at its first `=`, `+` as a space and
  the percent escapes as bytes of UTF-8.
-/

namespace UrlRouting.Query

/-! ### Writing -/

/-- The characters that stand in a form component as they are. -/
def keeps (c : Char) : Bool := c.isAlphanum || "-._".toList.contains c

/-- One character of a form component. -/
def encodeChar (c : Char) : List Char :=
  if c = ' ' then ['+'] else if keeps c then [c] else Percent.escapeChar c

/-- A name or a value as a form component. -/
def encodeComponent (text : String) : String := String.ofList (text.toList.flatMap encodeChar)

/-- One pair. -/
def encodePair (pair : String × String) : String :=
  encodeComponent pair.1 ++ "=" ++ encodeComponent pair.2

/-- A list of pairs as a query string. -/
def encode (pairs : List (String × String)) : String := "&".intercalate (pairs.map encodePair)

/-! ### Reading -/

/-- The parts of a text between the occurrences of a separator; at least one. -/
def splitAtEach (separator : Char) : List Char → List (List Char)
  | [] => [[]]
  | c :: rest =>
    if c = separator then [] :: splitAtEach separator rest
    else
      match splitAtEach separator rest with
      | [] => [[c]]
      | part :: parts => (c :: part) :: parts

/-- The parts of a text before and after the first occurrence of a separator; the second is
absent if the separator does not occur. -/
def splitAtFirst (separator : Char) : List Char → List Char × Option (List Char)
  | [] => ([], none)
  | c :: rest =>
    if c = separator then ([], some rest)
    else
      let (before, after) := splitAtFirst separator rest
      (c :: before, after)

/-- The text of a form component. -/
def decodeComponent (component : List Char) : String :=
  String.ofList (Percent.decode (component.map fun c => if c = '+' then ' ' else c))

/-- The pair of one piece; a piece without `=` is a name with an empty value. -/
def decodePair (piece : List Char) : String × String :=
  let (name, value) := splitAtFirst '=' piece
  (decodeComponent name, decodeComponent (value.getD []))

/-- The pairs of a query string; the empty text holds none. -/
def decode (query : String) : List (String × String) :=
  if query.toList.isEmpty then [] else (splitAtEach '&' query.toList).map decodePair

end UrlRouting.Query
