import UrlRouting.Json.Number
import UrlRouting.Json.Text

/-! # Reading JSON values

* `readItems` and `readMembers` read the inside of lists and objects, given how to read what stands
  there. Their `bound` is the length of the whole text: every item takes a character, so no text
  has more items than that.
* `readValue` reads a value in which at most `depth` containers are nested. Of two members of one
  name the later counts.
* `refusal` is the fault of a value that has another type than the one asked for: what can be read
  of it without entering a container has to be well-formed.
-/

namespace UrlRouting.Json

/-- The greatest number of containers around one place of a text that is read. -/
def nestingLimit : Nat := 127

/-! ### Lists -/

/-- The place where the next item of a list begins; none at the end of the list, which is left in
place. -/
def nextItem (isFirst : Bool) (text : List Char) : Except Fault (Option (List Char)) :=
  match skipBlanks text with
  | [] => .error .endsEarly
  | c :: rest =>
    if c = ']' then .ok none
    else if isFirst then .ok (some (c :: rest))
    else if c = ',' then
      match skipBlanks rest with
      | [] => .error .endsEarly
      | d :: after => if d = ']' then .error .malformed else .ok (some (d :: after))
    else .error .malformed

/-- Up to `bound` items of a list, and the text from its end. -/
def readItemsFrom {α : Type} (item : Reader α) : (bound : Nat) → (isFirst : Bool) → Reader (List α)
  | 0, _, _ => .error .malformed
  | bound + 1, isFirst, text => do
    match ← nextItem isFirst text with
    | none => return ([], text)
    | some start =>
      let (value, rest) ← item start
      let (values, rest) ← readItemsFrom item bound false rest
      return (value :: values, rest)

/-- The items of a list after its opening bracket, and what follows its closing bracket. -/
def readItems {α : Type} (bound : Nat) (item : Reader α) : Reader (List α) := fun text => do
  let (values, rest) ← readItemsFrom item (bound + 1) true text
  return (values, ← afterMark ']' rest)

/-! ### Objects -/

/-- The place after the opening quote of the next name of an object; none at the end of the object,
which is left in place. -/
def nextName (isFirst : Bool) (text : List Char) : Except Fault (Option (List Char)) :=
  match skipBlanks text with
  | [] => .error .endsEarly
  | c :: rest =>
    if c = '}' then .ok none
    else if isFirst then if c = '"' then .ok (some rest) else .error .malformed
    else if c = ',' then (afterMark '"' rest).map some
    else .error .malformed

/-- Up to `bound` members of an object, and the text from its end. A member is read from the end of
its name; it changes the state `σ`. -/
def readMembersFrom {σ : Type} (member : σ → String → Reader σ) :
    (bound : Nat) → (isFirst : Bool) → σ → Reader σ
  | 0, _, _, _ => .error .malformed
  | bound + 1, isFirst, state, text => do
    match ← nextName isFirst text with
    | none => return (state, text)
    | some start =>
      let (name, rest) ← readText start
      let (state, rest) ← member state name rest
      readMembersFrom member bound false state rest

/-- The members of an object after its opening brace, and what follows its closing brace. -/
def readMembers {σ : Type} (bound : Nat) (member : σ → String → Reader σ) (initial : σ) :
    Reader σ := fun text => do
  let (state, rest) ← readMembersFrom member (bound + 1) true initial text
  return (state, ← afterMark '}' rest)

/-- The value of a member, after the colon. -/
def readNamed {α : Type} (value : Reader α) : Reader α := fun text => do
  value (← afterMark ':' text)

/-- The value of a member that has not been read before. -/
def readOnce {α β : Type} (before : Option α) (value : Reader β) : Reader β := fun text =>
  if before.isSome then .error .wrongShape else readNamed value text

/-- The state that keeps the value of a member that has not been read before. -/
def readInto {α σ : Type} (before : Option α) (value : Reader α) (keep : α → σ) : Reader σ :=
  fun text => do
    let (found, rest) ← readOnce before value text
    return (keep found, rest)

/-! ### Values -/

/-- A member added to those read before. -/
def addMember (value : Reader Json) (before : Object) (name : String) : Reader Object :=
  fun text => do
    let (value, rest) ← readNamed value text
    return (before.insert name value, rest)

/-- A value in which at most `depth` containers are nested. -/
def readValue (bound depth : Nat) : Reader Json := fun text =>
  match skipBlanks text with
  | [] => .error .endsEarly
  | c :: rest =>
    if c = 'n' then do return (null, ← afterWord "ull".toList rest)
    else if c = 't' then do return (boolean true, ← afterWord "rue".toList rest)
    else if c = 'f' then do return (boolean false, ← afterWord "alse".toList rest)
    else if c = '"' then do
      let (value, rest) ← readText rest
      return (string value, rest)
    else if c = '-' ∨ c.isDigit then do
      let (value, rest) ← readNumber (c :: rest)
      return (number value, rest)
    else if c = '[' then
      match depth with
      | 0 => .error .malformed
      | depth + 1 => do
        let (items, rest) ← readItems bound (readValue bound depth) rest
        return (array items, rest)
    else if c = '{' then
      match depth with
      | 0 => .error .malformed
      | depth + 1 => do
        let (found, rest) ← readMembers bound (addMember (readValue bound depth)) .empty rest
        return (object found.members, rest)
    else .error .malformed

/-! ### Values of one type -/

/-- The fault of a value, given its first character, that has not the type asked for. -/
def refusal (c : Char) (rest : List Char) : Fault :=
  let asRead {α : Type} : Except Fault α → Fault
    | .error fault => fault
    | .ok _ => .wrongShape
  if c = 'n' then asRead (afterWord "ull".toList rest)
  else if c = 't' then asRead (afterWord "rue".toList rest)
  else if c = 'f' then asRead (afterWord "alse".toList rest)
  else if c = '"' then asRead (readText rest)
  else if c = '-' ∨ c.isDigit then asRead (readNumber (c :: rest))
  else if c = '[' ∨ c = '{' then .wrongShape
  else .malformed

/-- A string. -/
def readString : Reader String := fun text =>
  match skipBlanks text with
  | [] => .error .endsEarly
  | c :: rest => if c = '"' then readText rest else .error (refusal c rest)

/-- A string or `null`. -/
def readString? : Reader (Option String) := fun text =>
  match skipBlanks text with
  | 'n' :: rest => do return (none, ← afterWord "ull".toList rest)
  | rest => do
    let (value, rest) ← readString rest
    return (some value, rest)

/-- A list, given how to read an item in which one container less may be nested. -/
def readList {α : Type} (bound depth : Nat) (item : Nat → Reader α) : Reader (List α) := fun text =>
  match skipBlanks text with
  | [] => .error .endsEarly
  | c :: rest =>
    if c = '[' then
      match depth with
      | 0 => .error .malformed
      | depth + 1 => readItems bound (item depth) rest
    else .error (refusal c rest)

/-- An object. -/
def readObject (bound depth : Nat) : Reader Object := fun text =>
  match skipBlanks text with
  | [] => .error .endsEarly
  | c :: rest =>
    if c = '{' then
      match depth with
      | 0 => .error .malformed
      | depth + 1 => readMembers bound (addMember (readValue bound depth)) .empty rest
    else .error (refusal c rest)

/-- A record with named fields, written as an object or as the list of its fields. In a list the
field readers begin before the first item, and the end of the list has to follow. -/
def readRecord {α : Type} (depth : Nat) (named listed : Nat → Reader α) : Reader α := fun text =>
  match skipBlanks text with
  | [] => .error .endsEarly
  | c :: rest =>
    if c = '{' then
      match depth with
      | 0 => .error .malformed
      | depth + 1 => named depth rest
    else if c = '[' then
      match depth with
      | 0 => .error .malformed
      | depth + 1 => do
        let (value, rest) ← listed depth rest
        return (value, ← afterMark ']' rest)
    else .error (refusal c rest)

/-- The next field of a record that is written as a list, or `default` at the end of the list. -/
def readField {α : Type} (isFirst : Bool) (field : Reader α) (default : α) : Reader α :=
  fun text => do
    match ← nextItem isFirst text with
    | none => return (default, text)
    | some start => field start

/-- The value of a whole text, blanks around it apart. -/
def readWhole {α : Type} (value : Nat → Reader α) (text : String) : Except Fault α := do
  let chars := text.toList
  let (result, rest) ← value chars.length chars
  if (skipBlanks rest).isEmpty then return result else throw .malformed

/-- The value of a JSON text. -/
def ofText (text : String) : Except Fault Json :=
  readWhole (fun bound => readValue bound nestingLimit) text

end UrlRouting.Json
