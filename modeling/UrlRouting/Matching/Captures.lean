import UrlRouting.Pattern.Tree
import UrlRouting.Matching.SuffixTable

/-! # Captures of a tree

The values that a text gives to the placeholders of a tree.

* A literal takes itself, a placeholder takes one or more characters other than `/`, and a group
  takes what its content takes or nothing.
* `Tree.derivations` lists all ways to take a start of the text, in order of preference: a group
  is taken rather than skipped, a placeholder takes as much as it can, and earlier choices weigh
  more than later ones. The list may be exponentially long.
* `Tree.captures?` computes the first way that takes the whole text, with one table over the
  suffixes of the text per item.
-/

namespace UrlRouting

/-- The values taken by placeholders, in the order of the pattern. -/
abbrev Captures := List (String × List Char)

namespace Tree

open SuffixTable

/-! ### The matcher -/

/-- For each suffix of the text, the captures of the preferred way to take the items and then what
`later` answers. -/
def table (text : List Char) : Tree → SuffixTable Captures → SuffixTable Captures
  | done, later => later
  | literal word next, later => afterWord word.toList text (next.table text later)
  | placeholder name next, later =>
    (afterRun '/' text (next.table text later)).mapAnswers
      fun (value, captures) => (name, value) :: captures
  | group content next, later =>
    let skipped := next.table text later
    (content.table text skipped).orElse skipped

/-- The captures of the preferred way to take the whole text. -/
def captures? (tree : Tree) (text : List Char) : Option Captures :=
  (tree.table text (atEnd [] text)).whole

/-! ### All derivations -/

/-- What follows a word at the start of a text. -/
def afterWord? : List Char → List Char → Option (List Char)
  | [], text => some text
  | _ :: _, [] => none
  | w :: word, c :: text => if w = c then afterWord? word text else none

/-- The ways to take one or more characters other than `separator` from the start of a text,
longest first, each with the rest of the text. -/
def runs (separator : Char) : List Char → List (List Char × List Char)
  | [] => []
  | c :: rest =>
    if c = separator then []
    else (runs separator rest).map (fun (run, after) => (c :: run, after)) ++ [([c], rest)]

/-- The ways to take a start of the text, in order of preference, each with the rest of the
text. -/
def derivations : Tree → List Char → List (Captures × List Char)
  | done, text => [([], text)]
  | literal word next, text =>
    match afterWord? word.toList text with
    | some rest => next.derivations rest
    | none => []
  | placeholder name next, text =>
    (runs '/' text).flatMap fun (value, rest) =>
      (next.derivations rest).map fun (captures, after) => ((name, value) :: captures, after)
  | group content next, text =>
    ((content.derivations text).flatMap fun (inner, rest) =>
      (next.derivations rest).map fun (captures, after) => (inner ++ captures, after)) ++
    next.derivations text

/-! ### The matcher finds the preferred derivation -/

theorem afterWord?_eq (word text : List Char) :
    afterWord? word text = if word.isPrefixOf text then some (text.drop word.length) else none := by
  induction word generalizing text with
  | nil => rfl
  | cons w word ih =>
      cases text with
      | nil => rfl
      | cons c text =>
          by_cases h : w = c
          · simp [afterWord?, ih, h]
          · simp [afterWord?, h]

/-- What `later` answers after the most preferred derivation for which it has an answer. -/
def answer (later : List Char → Option Captures) (tree : Tree) (text : List Char) :
    Option Captures :=
  (tree.derivations text).findSome? fun (captures, rest) => (later rest).map (captures ++ ·)

theorem longestRun_eq_findSome? {α : Type} (separator : Char) (f : List Char → Option α)
    (text : List Char) :
    longestRun separator f text =
      (runs separator text).findSome? fun p => (f p.2).map fun found => (p.1, found) := by
  induction text with
  | nil => rfl
  | cons c rest ih =>
      have hmap : ∀ l : List (List Char × List Char),
          (l.findSome? fun p => (f p.2).map fun found => (c :: p.1, found)) =
            (l.findSome? fun p => (f p.2).map fun found => (p.1, found)).map
              fun q => (c :: q.1, q.2) := by
        intro l
        induction l with
        | nil => rfl
        | cons p l ihl =>
            simp only [List.findSome?_cons, ihl]
            cases f p.2 <;> rfl
      rw [longestRun, runs]
      split
      · rfl
      · rw [ih, List.findSome?_append, List.findSome?_map]
        simp only [Function.comp_def, hmap, List.findSome?_cons, List.findSome?_nil]
        cases (runs separator rest).findSome? fun p => (f p.2).map fun found => (p.1, found) with
        | none => cases f rest <;> rfl
        | some p => rfl

theorem findSome?_flatMap_map {α β γ : Type} (l : List α) (g : α → List β) (f : β → Option γ) :
    (l.flatMap g).findSome? f = l.findSome? fun a => (g a).findSome? f := by
  induction l with
  | nil => rfl
  | cons a l ih =>
      rw [List.flatMap_cons, List.findSome?_append, ih, List.findSome?_cons]
      cases (g a).findSome? f <;> rfl

theorem map_findSome? {α β γ : Type} (l : List α) (f : α → Option β) (g : β → γ) :
    (l.findSome? f).map g = l.findSome? fun a => (f a).map g := by
  induction l with
  | nil => rfl
  | cons a l ih =>
      rw [List.findSome?_cons, List.findSome?_cons]
      cases f a
      · exact ih
      · rfl

theorem table_tabulate (tree : Tree) (text : List Char) (later : List Char → Option Captures) :
    tree.table text (tabulate later text) = tabulate (tree.answer later) text := by
  induction tree generalizing later with
  | done =>
      have h : answer later done = later := by
        funext s
        simp [answer, derivations]
      rw [h, table]
  | literal word next ih =>
      rw [table, ih, afterWord_tabulate]
      congr 1
      funext s
      simp only [answer, derivations]
      rw [afterWord?_eq]
      split <;> rfl
  | placeholder name next ih =>
      rw [table, ih, afterRun_tabulate, mapAnswers_tabulate]
      congr 1
      funext s
      simp only [answer, derivations]
      rw [longestRun_eq_findSome?, map_findSome?, findSome?_flatMap_map]
      congr 1
      funext p
      simp only [answer]
      rw [List.findSome?_map, Option.map_map, map_findSome?]
      congr 1
      funext q
      simp [Function.comp_def]
  | group content next ihc ihn =>
      simp only [table]
      rw [ihn, ihc, orElse_tabulate]
      congr 1
      funext s
      simp only [answer, derivations, List.findSome?_append]
      congr 1
      rw [findSome?_flatMap_map]
      congr 1
      funext p
      rw [List.findSome?_map, map_findSome?]
      congr 1
      funext q
      simp [Function.comp_def, List.append_assoc]

theorem captures?_eq (tree : Tree) (text : List Char) :
    tree.captures? text = ((tree.derivations text).find? fun p => p.2.isEmpty).map Prod.fst := by
  rw [captures?, atEnd, table_tabulate, whole_tabulate, answer]
  induction tree.derivations text with
  | nil => rfl
  | cons p l ih =>
      rw [List.findSome?_cons, List.find?_cons, ih]
      cases h : p.2.isEmpty with
      | true => simp [List.isEmpty_iff.mp h]
      | false => simp [List.isEmpty_eq_false_iff.mp h]

end Tree

end UrlRouting
