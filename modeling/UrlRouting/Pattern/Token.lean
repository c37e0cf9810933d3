import UrlRouting.Pattern.Error

/-! # Tokens of a pattern

A pattern such as `/users[/{action}]` is a sequence of literal texts, placeholders and brackets.

* `Token.write` is the text of a token, `Token.scan` splits a text into tokens.
* A placeholder is a brace pair around one or more ASCII letters and digits. Every other brace is
  a fault; the leftmost one is reported by its offset in bytes.
* Literals are as long as possible, so none is empty and no two are neighbours.
-/

namespace UrlRouting

/-- A piece of a pattern. -/
inductive Token where
  /-- A text that stands for itself. -/
  | literal (text : String)
  /-- A named place for a value. -/
  | placeholder (name : String)
  /-- The start of an optional group. -/
  | groupOpen
  /-- The end of an optional group. -/
  | groupClose
deriving DecidableEq, Repr

namespace Token

/-- The text of a token. -/
def write : Token → String
  | literal text => text
  | placeholder name => "\x7b" ++ name ++ "\x7d"
  | groupOpen => "["
  | groupClose => "]"

/-- The text of a token sequence. -/
def writeAll (tokens : List Token) : String := String.join (tokens.map write)

/-! ### Scanning -/

/-- A character that only occurs in literals. -/
def isPlain (c : Char) : Bool := !(c = '{' || c = '}' || c = '[' || c = ']')

/-- The placeholder whose name begins a text, and what follows it; none unless the text begins with
a name and a closing brace. -/
def placeholderEnd? (text : List Char) : Option (Token × List Char) :=
  match text.dropWhile Char.isAlphanum with
  | [] => none
  | c :: after =>
    if c = '}' ∧ text.takeWhile Char.isAlphanum ≠ [] then
      some (placeholder (String.ofList (text.takeWhile Char.isAlphanum)), after)
    else none

/-- The first token of a text and what follows it; none if the text is empty or begins with a
brace that belongs to no placeholder. -/
def first? : List Char → Option (Token × List Char)
  | [] => none
  | c :: rest =>
    if c = '[' then some (groupOpen, rest)
    else if c = ']' then some (groupClose, rest)
    else if c = '{' then placeholderEnd? rest
    else if c = '}' then none
    else some (literal (String.ofList (c :: rest.takeWhile isPlain)), rest.dropWhile isPlain)

theorem length_dropWhile_le {α : Type} (p : α → Bool) (l : List α) :
    (l.dropWhile p).length ≤ l.length :=
  (List.dropWhile_suffix p).length_le

theorem length_lt_of_placeholderEnd? {text rest : List Char} {token : Token}
    (h : placeholderEnd? text = some (token, rest)) : rest.length < text.length := by
  have hd := length_dropWhile_le Char.isAlphanum text
  unfold placeholderEnd? at h
  split at h
  · cases h
  · next c after hc =>
      rw [hc, List.length_cons] at hd
      split at h
      · cases h
        exact hd
      · cases h

theorem length_lt_of_first? {text rest : List Char} {token : Token}
    (h : first? text = some (token, rest)) : rest.length < text.length := by
  cases text with
  | nil => cases h
  | cons c tail =>
      have hp := length_dropWhile_le isPlain tail
      simp only [first?] at h
      rw [List.length_cons]
      split at h
      · cases h; omega
      split at h
      · cases h; omega
      split at h
      · have := length_lt_of_placeholderEnd? h
        omega
      split at h
      · cases h
      · cases h; omega

/-- The tokens of the part of a pattern that begins at a byte offset. -/
def scanFrom (offset : Nat) (text : List Char) : Except PatternError (List Token) :=
  match text with
  | [] => .ok []
  | c :: tail =>
    match _h : first? (c :: tail) with
    | none => .error (.malformedPlaceholder offset)
    | some (token, rest) => do
      let tokens ← scanFrom (offset + token.write.utf8ByteSize) rest
      return token :: tokens
termination_by text.length
decreasing_by exact length_lt_of_first? _h

/-- The tokens of a pattern. -/
def scan (pattern : String) : Except PatternError (List Token) := scanFrom 0 pattern.toList

/-! ### Placeholder names -/

/-- The name of a placeholder. -/
def name? : Token → Option String
  | placeholder name => some name
  | _ => none

/-- The names of the placeholders, in order. -/
def names (tokens : List Token) : List String := tokens.filterMap name?

theorem names_cons_of_none {token : Token} (h : token.name? = none) (rest : List Token) :
    names (token :: rest) = names rest :=
  List.filterMap_cons_none h

theorem names_cons_of_some {token : Token} {name : String} (h : token.name? = some name)
    (rest : List Token) : names (token :: rest) = name :: names rest :=
  List.filterMap_cons_some h

/-- The names in `found` and, after them, those of the placeholders of a token sequence, provided
that no name is met that was found before. -/
def distinctFrom (found : List String) : List Token → Except PatternError (List String)
  | [] => .ok found
  | token :: rest =>
    match token.name? with
    | none => distinctFrom found rest
    | some name =>
      if name ∈ found then .error (.repeatedPlaceholder name)
      else distinctFrom (found ++ [name]) rest

/-- The names of the placeholders, provided that they are distinct. -/
def distinctNames (tokens : List Token) : Except PatternError (List String) :=
  distinctFrom [] tokens

theorem names_of_distinctFrom {found collected : List String} {tokens : List Token}
    (h : distinctFrom found tokens = .ok collected) : collected = found ++ names tokens := by
  induction tokens generalizing found with
  | nil =>
      cases h
      exact (List.append_nil _).symm
  | cons token rest ih =>
      rw [distinctFrom] at h
      split at h
      · next hn =>
        rw [names_cons_of_none hn]
        exact ih h
      · next name hn =>
        split at h
        · cases h
        · rw [names_cons_of_some hn, List.append_cons]
          exact ih h

/-- The collected list is that of the names of the placeholders. -/
theorem names_of_distinctNames {collected : List String} {tokens : List Token}
    (h : distinctNames tokens = .ok collected) : collected = names tokens :=
  names_of_distinctFrom h

end Token

end UrlRouting
