import UrlRouting.Json.Number
import UrlRouting.Json.Text

/-! # Skipping JSON values

`skipValue` passes over one value of any shape. The value has to be well-formed, but numbers of any
size, halves of code unit pairs and any depth of nesting are accepted: the open containers are kept
in a list (`Frame`), and each step takes one token. -/

namespace UrlRouting.Json

/-- A container that is open. -/
inductive Frame where
  | list
  | object
deriving DecidableEq, Repr

/-- The mark that ends a container. -/
def Frame.close : Frame → Char
  | list => ']'
  | object => '}'

/-- What comes next. -/
inductive Place where
  /-- A value. -/
  | value
  /-- The first item of a container, or its end. -/
  | opened
  /-- A further item of the innermost container, or its end; the end of all if none is open. -/
  | after
deriving DecidableEq, Repr

/-- A container that has been opened comes before its first value in the same text. -/
def Place.rank : Place → Nat
  | value => 0
  | opened => 1
  | after => 1

/-- What follows a value that is no container, given its first character. -/
def skipScalar (c : Char) (rest : List Char) : Except Fault (List Char) :=
  if c = 'n' then afterWord "ull".toList rest
  else if c = 't' then afterWord "rue".toList rest
  else if c = 'f' then afterWord "alse".toList rest
  else if c = '"' then skipChars rest
  else if c = '-' ∨ c.isDigit then skipNumber (c :: rest)
  else .error .malformed

/-- The value of the next item: in an object its name and a colon come first. -/
def enterItem (frame : Frame) (text : List Char) : Except Fault (List Char) :=
  match frame with
  | .list => .ok text
  | .object => do
    let name ← afterMark '"' text
    let rest ← skipChars name
    afterMark ':' rest

theorem length_lt_of_skipNumber {text rest : List Char} (h : skipNumber text = .ok rest) :
    rest.length < text.length := by
  unfold skipNumber at h
  cases hn : takeNumeral .malformed text with
  | error fault =>
      rw [hn] at h
      cases h
  | ok p =>
      rw [hn] at h
      cases h
      exact length_lt_of_takeNumeral hn

theorem length_le_of_skipScalar {c : Char} {tail rest : List Char}
    (h : skipScalar c tail = .ok rest) : rest.length ≤ tail.length := by
  unfold skipScalar at h
  split at h
  · exact length_le_of_afterWord h
  split at h
  · exact length_le_of_afterWord h
  split at h
  · exact length_le_of_afterWord h
  split at h
  · exact Nat.le_of_lt (length_lt_of_skipChars h)
  split at h
  · exact Nat.le_of_lt_succ (length_lt_of_skipNumber h)
  · cases h

theorem length_le_of_enterItem {frame : Frame} {text rest : List Char}
    (h : enterItem frame text = .ok rest) : rest.length ≤ text.length := by
  cases frame with
  | list =>
      cases h
      exact Nat.le_refl _
  | object =>
      obtain ⟨name, hq, h⟩ := bind_eq_ok.mp h
      obtain ⟨after, hs, h⟩ := bind_eq_ok.mp h
      have h1 := length_lt_of_afterMark hq
      have h2 := length_lt_of_skipChars hs
      have h3 := length_lt_of_afterMark h
      omega

/-- What follows the rest of a value, given what comes next in it and the open containers, the
innermost first. -/
def skipFrom (place : Place) (frames : List Frame) (text : List Char) :
    Except Fault (List Char) :=
  match place, frames with
  | .value, frames =>
    match _ht : skipBlanks text with
    | [] => .error .endsEarly
    | c :: rest =>
      if c = '[' then skipFrom .opened (.list :: frames) rest
      else if c = '{' then skipFrom .opened (.object :: frames) rest
      else
        match _hs : skipScalar c rest with
        | .error fault => .error fault
        | .ok after => skipFrom .after frames after
  | _, [] => .ok text
  | .opened, frame :: frames =>
    match _ht : skipBlanks text with
    | [] => .error .endsEarly
    | c :: rest =>
      if c = frame.close then skipFrom .after frames rest
      else
        match _hi : enterItem frame (c :: rest) with
        | .error fault => .error fault
        | .ok item => skipFrom .value (frame :: frames) item
  | .after, frame :: frames =>
    match _ht : skipBlanks text with
    | [] => .error .endsEarly
    | c :: rest =>
      if c = frame.close then skipFrom .after frames rest
      else if c = ',' then
        match _hi : enterItem frame rest with
        | .error fault => .error fault
        | .ok item => skipFrom .value (frame :: frames) item
      else .error .malformed
termination_by 2 * text.length + place.rank
decreasing_by
  all_goals have hb := length_lt_of_skipBlanks_eq_cons _ht
  all_goals simp only [Place.rank]
  · omega
  · omega
  · have := length_le_of_skipScalar _hs
    omega
  · omega
  · have := length_le_of_enterItem _hi
    rw [List.length_cons] at this
    omega
  · omega
  · have := length_le_of_enterItem _hi
    omega

/-- What follows a value of any shape. -/
def skipValue (text : List Char) : Except Fault (List Char) := skipFrom .value [] text

/-- A member whose value is not looked at. -/
def skipMember {σ : Type} (state : σ) : Reader σ := fun text => do
  return (state, ← skipValue (← afterMark ':' text))

end UrlRouting.Json
