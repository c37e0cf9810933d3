import UrlRouting.Json.Fault

/-! # JSON strings

* `writeText` writes a string in quotes; quotes, backslashes and control characters are escaped.
* `readChars` reads the characters up to the closing quote. Escapes of code units pair up to code
  points; half a pair is malformed, and so are raw control characters.
* `skipChars` passes over a string without joining code units, so half a pair is accepted.
-/

namespace UrlRouting.Json

/-! ### Writing -/

/-- The letter that escapes a character after a backslash. -/
def escapeLetter? (c : Char) : Option Char :=
  if c = '"' || c = '\\' then some c
  else if c = '\x08' then some 'b'
  else if c = '\x0c' then some 'f'
  else if c = '\n' then some 'n'
  else if c = '\r' then some 'r'
  else if c = '\t' then some 't'
  else none

/-- A character of a written string. -/
def writeChar (c : Char) : List Char :=
  match escapeLetter? c with
  | some letter => ['\\', letter]
  | none =>
    if c.toNat < 0x20 then
      ['\\', 'u', '0', '0', Nat.digitChar (c.toNat / 16), Nat.digitChar (c.toNat % 16)]
    else [c]

/-- A string in quotes. -/
def writeText (text : List Char) : List Char := '"' :: text.flatMap writeChar ++ ['"']

/-! ### Escapes -/

/-- The character that a letter after a backslash stands for. -/
def escapedChar? (letter : Char) : Option Char :=
  if letter = '"' || letter = '\\' || letter = '/' then some letter
  else if letter = 'b' then some '\x08'
  else if letter = 'f' then some '\x0c'
  else if letter = 'n' then some '\n'
  else if letter = 'r' then some '\r'
  else if letter = 't' then some '\t'
  else none

/-- The value of a hexadecimal digit of either case. -/
def hexValue? (c : Char) : Option Nat :=
  if '0' ≤ c && c ≤ '9' then some (c.toNat - '0'.toNat)
  else if 'a' ≤ c && c ≤ 'f' then some (c.toNat - 'a'.toNat + 10)
  else if 'A' ≤ c && c ≤ 'F' then some (c.toNat - 'A'.toNat + 10)
  else none

/-- The value of four hexadecimal digits. -/
def unitOf? (a b c d : Char) : Option Nat := do
  return 4096 * (← hexValue? a) + 256 * (← hexValue? b) + 16 * (← hexValue? c) + (← hexValue? d)

/-- Why no code unit can be read: fewer than four bytes are left, or they are no digits. -/
def unitFault (text : List Char) : Fault :=
  if (String.ofList (text.take 4)).utf8ByteSize < 4 then .endsEarly else .malformed

/-- A code unit of four hexadecimal digits. -/
def readUnit (text : List Char) : Except Fault (Nat × List Char) :=
  match text with
  | a :: b :: c :: d :: rest =>
    match unitOf? a b c d with
    | some unit => .ok (unit, rest)
    | none => .error (unitFault text)
  | _ => .error (unitFault text)

/-- The second half of a pair of code units: a backslash, `u` and the code unit. -/
def readTrailing (text : List Char) : Except Fault (Nat × List Char) := do
  let rest ← afterWord ['\\', 'u'] text
  let (unit, rest) ← readUnit rest
  if 0xDC00 ≤ unit ∧ unit ≤ 0xDFFF then .ok (unit, rest) else .error .malformed

/-- The character of a code unit escape after its `u`, with the second half if it is the first of a
pair. -/
def readCodePoint (text : List Char) : Except Fault (Char × List Char) := do
  let (unit, rest) ← readUnit text
  if unit < 0xD800 ∨ 0xDFFF < unit then .ok (Char.ofNat unit, rest)
  else if 0xDC00 ≤ unit then .error .malformed
  else
    let (trailing, rest) ← readTrailing rest
    return (Char.ofNat (0x10000 + 0x400 * (unit - 0xD800) + (trailing - 0xDC00)), rest)

/-- The character of an escape after its backslash. -/
def readEscape : List Char → Except Fault (Char × List Char)
  | [] => .error .endsEarly
  | letter :: rest =>
    if letter = 'u' then readCodePoint rest
    else
      match escapedChar? letter with
      | some c => .ok (c, rest)
      | none => .error .malformed

/-- What follows an escape after its backslash. -/
def skipEscape : List Char → Except Fault (List Char)
  | [] => .error .endsEarly
  | letter :: rest =>
    if letter = 'u' then (readUnit rest).map Prod.snd
    else if (escapedChar? letter).isSome then .ok rest
    else .error .malformed

/-! ### Escapes take characters -/

theorem length_le_of_readUnit {text rest : List Char} {unit : Nat}
    (h : readUnit text = .ok (unit, rest)) : rest.length ≤ text.length := by
  unfold readUnit at h
  split at h
  · split at h
    · cases h
      simp only [List.length_cons]
      omega
    · cases h
  · cases h

theorem length_le_of_readTrailing {text rest : List Char} {unit : Nat}
    (h : readTrailing text = .ok (unit, rest)) : rest.length ≤ text.length := by
  obtain ⟨middle, hw, h⟩ := bind_eq_ok.mp h
  obtain ⟨⟨value, after⟩, hu, h⟩ := bind_eq_ok.mp h
  have h1 := length_le_of_afterWord hw
  have h2 := length_le_of_readUnit hu
  dsimp only at h
  split at h
  · cases h
    omega
  · cases h

theorem length_le_of_readCodePoint {text rest : List Char} {c : Char}
    (h : readCodePoint text = .ok (c, rest)) : rest.length ≤ text.length := by
  obtain ⟨⟨value, after⟩, hu, h⟩ := bind_eq_ok.mp h
  have h1 := length_le_of_readUnit hu
  dsimp only at h
  split at h
  · cases h
    exact h1
  · split at h
    · cases h
    · obtain ⟨⟨trailing, last⟩, ht, h⟩ := bind_eq_ok.mp h
      have h2 := length_le_of_readTrailing ht
      have hr : last = rest := (Prod.mk.inj (Except.ok.inj h)).2
      rw [← hr]
      omega

theorem length_lt_of_readEscape {text rest : List Char} {c : Char}
    (h : readEscape text = .ok (c, rest)) : rest.length < text.length := by
  cases text with
  | nil => cases h
  | cons letter tail =>
      simp only [readEscape] at h
      rw [List.length_cons]
      split at h
      · have := length_le_of_readCodePoint h
        omega
      · split at h
        · cases h
          omega
        · cases h

theorem length_lt_of_skipEscape {text rest : List Char} (h : skipEscape text = .ok rest) :
    rest.length < text.length := by
  cases text with
  | nil => cases h
  | cons letter tail =>
      simp only [skipEscape] at h
      rw [List.length_cons]
      split at h
      · cases hu : readUnit tail with
        | error fault => simp [hu, Except.map] at h
        | ok p =>
            have := length_le_of_readUnit hu
            simp only [hu, Except.map] at h
            cases h
            omega
      · split at h
        · cases h
          omega
        · cases h

/-! ### Reading and skipping -/

/-- The characters of a string up to its closing quote, and what follows the quote. -/
def readChars (text : List Char) : Except Fault (List Char × List Char) :=
  match text with
  | [] => .error .endsEarly
  | c :: tail =>
    if c = '"' then .ok ([], tail)
    else if c = '\\' then
      match _h : readEscape tail with
      | .error fault => .error fault
      | .ok (escaped, after) => do
        let (chars, rest) ← readChars after
        return (escaped :: chars, rest)
    else if c.toNat < 0x20 then .error .malformed
    else do
      let (chars, rest) ← readChars tail
      return (c :: chars, rest)
termination_by text.length
decreasing_by
  · have := length_lt_of_readEscape _h
    simp only [List.length_cons]
    omega
  · exact Nat.lt_succ_self _

/-- A string after its opening quote. -/
def readText : Reader String := fun text => do
  let (chars, rest) ← readChars text
  return (String.ofList chars, rest)

/-- What follows a string after its opening quote. -/
def skipChars (text : List Char) : Except Fault (List Char) :=
  match text with
  | [] => .error .endsEarly
  | c :: tail =>
    if c = '"' then .ok tail
    else if c = '\\' then
      match _h : skipEscape tail with
      | .error fault => .error fault
      | .ok after => skipChars after
    else if c.toNat < 0x20 then .error .malformed
    else skipChars tail
termination_by text.length
decreasing_by
  · have := length_lt_of_skipEscape _h
    simp only [List.length_cons]
    omega
  · exact Nat.lt_succ_self _

theorem length_lt_of_skipChars {text rest : List Char} (h : skipChars text = .ok rest) :
    rest.length < text.length := by
  fun_induction skipChars text with
  | case1 => cases h
  | case2 =>
      cases h
      exact Nat.lt_succ_self _
  | case3 => cases h
  | case4 =>
      rename_i hskip _ ih
      have h1 := length_lt_of_skipEscape hskip
      have h2 := ih h
      rw [List.length_cons]
      omega
  | case5 => cases h
  | case6 =>
      rename_i ih
      have := ih h
      rw [List.length_cons]
      omega

end UrlRouting.Json
