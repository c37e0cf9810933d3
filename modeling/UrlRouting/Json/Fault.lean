/-! # Faults of JSON texts

Readers take a text from its start and give what they read with the rest of the text. A text is
read once from left to right, and the first thing that is wrong decides the kind of fault. -/

namespace UrlRouting.Json

/-- A kind of fault. -/
inductive Fault where
  /-- The text ends where more is needed. -/
  | endsEarly
  /-- The text is not JSON, or it holds a number or a nesting beyond the limits. -/
  | malformed
  /-- A JSON value has not the shape that is asked for. -/
  | wrongShape
deriving DecidableEq, Repr

/-- A reader of the start of a text. -/
abbrev Reader (α : Type) := List Char → Except Fault (α × List Char)

/-- The characters that may stand between the parts of a text. -/
def isBlank (c : Char) : Bool := c = ' ' || c = '\t' || c = '\n' || c = '\r'

/-- The text from its first character that is not blank. -/
def skipBlanks (text : List Char) : List Char := text.dropWhile isBlank

/-- What follows a word that has to come next. -/
def afterWord : (word text : List Char) → Except Fault (List Char)
  | [], text => .ok text
  | _ :: _, [] => .error .endsEarly
  | w :: word, c :: text => if w = c then afterWord word text else .error .malformed

/-- What follows a mark that has to come next, blanks apart. -/
def afterMark (mark : Char) (text : List Char) : Except Fault (List Char) :=
  match skipBlanks text with
  | [] => .error .endsEarly
  | c :: rest => if c = mark then .ok rest else .error .malformed

theorem bind_eq_ok {α β : Type} {first : Except Fault α} {second : α → Except Fault β} {b : β} :
    (first >>= second) = .ok b ↔ ∃ a, first = .ok a ∧ second a = .ok b := by
  cases first with
  | error fault => exact ⟨fun h => (nomatch h), fun ⟨_, h, _⟩ => (nomatch h)⟩
  | ok a => exact ⟨fun h => ⟨a, rfl, h⟩, fun ⟨_, h, h'⟩ => by cases h; exact h'⟩

theorem length_skipBlanks_le (text : List Char) : (skipBlanks text).length ≤ text.length :=
  (List.dropWhile_suffix isBlank).length_le

theorem length_lt_of_skipBlanks_eq_cons {text rest : List Char} {c : Char}
    (h : skipBlanks text = c :: rest) : rest.length < text.length := by
  have hb := length_skipBlanks_le text
  rw [h, List.length_cons] at hb
  exact hb

theorem length_le_of_afterWord {word text rest : List Char} (h : afterWord word text = .ok rest) :
    rest.length ≤ text.length := by
  induction word generalizing text with
  | nil =>
      cases h
      exact Nat.le_refl _
  | cons w word ih =>
      cases text with
      | nil => cases h
      | cons c tail =>
          simp only [afterWord] at h
          split at h
          · exact Nat.le_succ_of_le (ih h)
          · cases h

theorem length_lt_of_afterMark {mark : Char} {text rest : List Char}
    (h : afterMark mark text = .ok rest) : rest.length < text.length := by
  unfold afterMark at h
  split at h
  · cases h
  · next c tail hc =>
      split at h
      · cases h
        exact length_lt_of_skipBlanks_eq_cons hc
      · cases h

end UrlRouting.Json
