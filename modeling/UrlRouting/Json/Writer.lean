import UrlRouting.Json.Number
import UrlRouting.Json.Text

/-! # Writing JSON values

Values are written without blanks, members in order of their names. -/

namespace UrlRouting.Json

/-- Parts joined by commas. -/
def commaSeparated (parts : List (List Char)) : List Char := [','].intercalate parts

/-- A list of written items. -/
def writeList (items : List (List Char)) : List Char := '[' :: commaSeparated items ++ [']']

/-- A member with a written value. -/
def writeMember (name : String) (value : List Char) : List Char :=
  writeText name.toList ++ ':' :: value

/-- An object of written members. -/
def writeObject (members : List (List Char)) : List Char :=
  '{' :: commaSeparated members ++ ['}']

mutual

/-- A value. -/
def write : Json → List Char
  | null => "null".toList
  | boolean value => (if value then "true" else "false").toList
  | number value => value.write.toList
  | string value => writeText value.toList
  | array items => writeList (writeEach items)
  | object members => writeObject (writeMembers members)

/-- Each item. -/
def writeEach : List Json → List (List Char)
  | [] => []
  | item :: rest => write item :: writeEach rest

/-- Each member. -/
def writeMembers : List (String × Json) → List (List Char)
  | [] => []
  | (name, value) :: rest => writeMember name (write value) :: writeMembers rest

end

end UrlRouting.Json
