/-! # Tables over the suffixes of a text

A table holds an optional answer for every suffix of a text. A matcher reads its pattern from the
end: from the answers of "what follows" it computes the answers of "this item and what follows",
once for every suffix, so that no suffix is tried twice for the same item.

`tabulate` is the view of a table as a function on suffixes; each operation has a lemma that says
what it does to that function.
-/

namespace UrlRouting

/-- An optional answer for every suffix of a text, from the whole text down to the empty one. -/
abbrev SuffixTable (α : Type) := List (Option α)

namespace SuffixTable

variable {α β : Type}

/-- The table of a function on the suffixes of a text. -/
def tabulate (answer : List Char → Option α) : List Char → SuffixTable α
  | [] => [answer []]
  | c :: rest => answer (c :: rest) :: tabulate answer rest

/-- The answer for the whole text. -/
def whole (table : SuffixTable α) : Option α := table.head?.join

/-- The table that answers the empty suffix only. -/
def atEnd (answer : α) (text : List Char) : SuffixTable α :=
  tabulate (fun suffix => if suffix.isEmpty then some answer else none) text

/-- The first table's answers, with those of the second where the first has none. -/
def orElse (first second : SuffixTable α) : SuffixTable α :=
  List.zipWith Option.or first second

/-- Every answer changed alike. -/
def mapAnswers (f : α → β) (table : SuffixTable α) : SuffixTable β := table.map (Option.map f)

/-- Answers for the suffixes of `text` that begin with `word`, each taken from a table that runs
`word.length` suffixes ahead. -/
def alignAfter (word : List Char) : List Char → SuffixTable α → SuffixTable α
  | [], ahead => [if word.isEmpty then ahead.whole else none]
  | c :: rest, ahead =>
    (if word.isPrefixOf (c :: rest) then ahead.whole else none) :: alignAfter word rest ahead.tail

/-- A suffix that begins with `word` is answered as the suffix after that word. -/
def afterWord (word text : List Char) (later : SuffixTable α) : SuffixTable α :=
  alignAfter word text (later.drop word.length)

/-- A suffix is answered as the suffix after the longest answered run of one or more characters
other than `separator` at its start, together with that run. -/
def afterRun (separator : Char) : List Char → SuffixTable α → SuffixTable (List Char × α)
  | [], _ => [none]
  | c :: rest, later =>
    let longer := afterRun separator rest later.tail
    let here :=
      if c = separator then none
      else
        match longer.whole with
        | some (run, answer) => some (c :: run, answer)
        | none => (whole later.tail).map fun answer => ([c], answer)
    here :: longer

/-! ### Tables as functions -/

/-- The longest answered run at the start of a suffix. -/
def longestRun (separator : Char) (answer : List Char → Option α) :
    List Char → Option (List Char × α)
  | [] => none
  | c :: rest =>
    if c = separator then none
    else
      match longestRun separator answer rest with
      | some (run, found) => some (c :: run, found)
      | none => (answer rest).map fun found => ([c], found)

@[simp] theorem whole_tabulate (answer : List Char → Option α) (text : List Char) :
    (tabulate answer text).whole = answer text := by
  cases text <;> rfl

@[simp] theorem tail_tabulate_cons (answer : List Char → Option α) (c : Char)
    (rest : List Char) : (tabulate answer (c :: rest)).tail = tabulate answer rest := rfl

theorem orElse_tabulate (f g : List Char → Option α) (text : List Char) :
    orElse (tabulate f text) (tabulate g text) = tabulate (fun s => (f s).or (g s)) text := by
  induction text with
  | nil => rfl
  | cons c rest ih =>
      simp only [orElse, tabulate, List.zipWith_cons_cons] at ih ⊢
      rw [ih]

theorem mapAnswers_tabulate (h : α → β) (f : List Char → Option α) (text : List Char) :
    mapAnswers h (tabulate f text) = tabulate (fun s => (f s).map h) text := by
  induction text with
  | nil => rfl
  | cons c rest ih =>
      simp only [mapAnswers, tabulate, List.map_cons] at ih ⊢
      rw [ih]

theorem whole_drop_tabulate (f : List Char → Option α) (text : List Char) {n : Nat}
    (h : n ≤ text.length) : whole ((tabulate f text).drop n) = f (text.drop n) := by
  induction text generalizing n with
  | nil =>
      rw [Nat.le_zero.mp h]
      rfl
  | cons c rest ih =>
      cases n with
      | zero => rfl
      | succ n => exact ih (Nat.le_of_succ_le_succ h)

theorem afterWord_tabulate (word : List Char) (f : List Char → Option α) (text : List Char) :
    afterWord word text (tabulate f text) =
      tabulate (fun s => if word.isPrefixOf s then f (s.drop word.length) else none) text := by
  unfold afterWord
  induction text with
  | nil => cases word <;> rfl
  | cons c rest ih =>
      rw [alignAfter, tabulate, List.tail_drop, ← List.drop_tail]
      simp only [tabulate, List.tail_cons, ih]
      congr 1
      split
      · next hp =>
        rw [← tabulate, whole_drop_tabulate]
        exact (List.isPrefixOf_iff_prefix.mp hp).length_le
      · rfl

theorem afterRun_tabulate (separator : Char) (f : List Char → Option α) (text : List Char) :
    afterRun separator text (tabulate f text) = tabulate (longestRun separator f) text := by
  induction text with
  | nil => rfl
  | cons c rest ih =>
      simp only [afterRun, tabulate, List.tail_cons, ih, whole_tabulate, longestRun]

end SuffixTable

end UrlRouting
