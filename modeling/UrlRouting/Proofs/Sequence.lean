import UrlRouting.Matching.Captures

/-! # Matching a sequence item by item

Equations of the matcher in which its tables no longer occur: what it answers for a sequence, in
terms of what it answers for the rest.

* `Tree.append` is one sequence after another; a group is matched as its content before the rest,
  or else as the rest alone (`Tree.captures?_group`).
* `Tree.captures?_append`: a concatenation is matched by the first derivation of its front whose
  remaining text the other part matches.
* `Tree.captures?_placeholder_append`: a value that ends where the rest begins with `/` is read
  whole. -/

namespace UrlRouting

namespace SuffixTable

/-- A text that is empty or begins with the separator. -/
def AtSeparator (separator : Char) (text : List Char) : Prop :=
  ∀ c ∈ text.head?, c = separator

theorem atSeparator_nil (separator : Char) : AtSeparator separator [] := by
  intro c hc
  cases hc

theorem longestRun_of_atSeparator {α : Type} {separator : Char} {text : List Char}
    (h : AtSeparator separator text) (f : List Char → Option α) :
    longestRun separator f text = none := by
  cases text with
  | nil => rfl
  | cons c text => rw [longestRun, if_pos (h c rfl)]

theorem longestRun_append {α : Type} {separator : Char} {f : List Char → Option α}
    {value rest : List Char} {found : α} (hne : value ≠ []) (hv : separator ∉ value)
    (hr : AtSeparator separator rest) (hf : f rest = some found) :
    longestRun separator f (value ++ rest) = some (value, found) := by
  induction value with
  | nil => exact absurd rfl hne
  | cons c value ih =>
      rw [List.mem_cons, not_or] at hv
      rw [List.cons_append, longestRun, if_neg (Ne.symm hv.1)]
      cases value with
      | nil =>
          rw [List.nil_append, longestRun_of_atSeparator hr, hf]
          rfl
      | cons d value => rw [ih (List.cons_ne_nil d value) hv.2]

end SuffixTable

namespace Tree

open SuffixTable

/-- The items of one sequence and then those of another. -/
def append : Tree → Tree → Tree
  | done, later => later
  | literal text next, later => literal text (next.append later)
  | placeholder name next, later => placeholder name (next.append later)
  | group content next, later => group content (next.append later)

theorem append_done (tree : Tree) : tree.append done = tree := by
  induction tree with
  | done => rfl
  | literal text next ih => rw [append, ih]
  | placeholder name next ih => rw [append, ih]
  | group content next _ ih => rw [append, ih]

theorem table_append (tree later : Tree) (text : List Char) (table : SuffixTable Captures) :
    (tree.append later).table text table = tree.table text (later.table text table) := by
  induction tree with
  | done => rfl
  | literal word next ih => simp only [append, Tree.table, ih]
  | placeholder name next ih => simp only [append, Tree.table, ih]
  | group content next _ ih => simp only [append, Tree.table, ih]

/-- The table of a sequence holds the matcher's answer for every suffix. -/
theorem table_atEnd (tree : Tree) (text : List Char) :
    tree.table text (atEnd [] text) = tabulate tree.captures? text := by
  rw [atEnd, table_tabulate]
  congr 1
  funext suffix
  rw [captures?, atEnd, table_tabulate, whole_tabulate]

theorem table_captures? (tree later : Tree) (text : List Char) :
    tree.table text (tabulate later.captures? text) =
      tabulate (tree.append later).captures? text := by
  rw [← table_atEnd, ← table_atEnd, table_append]

/-! ### One item -/

theorem captures?_literal_append (word : String) (next : Tree) (rest : List Char) :
    (literal word next).captures? (word.toList ++ rest) = next.captures? rest := by
  rw [captures?, table, table_atEnd, afterWord_tabulate, whole_tabulate, List.drop_left, if_pos]
  exact List.isPrefixOf_iff_prefix.mpr (List.prefix_append _ _)

theorem captures?_placeholder_append {name : String} {next : Tree} {value rest : List Char}
    {captures : Captures} (hne : value ≠ []) (hv : '/' ∉ value) (hr : AtSeparator '/' rest)
    (hn : next.captures? rest = some captures) :
    (placeholder name next).captures? (value ++ rest) = some ((name, value) :: captures) := by
  rw [captures?, table, table_atEnd, afterRun_tabulate, mapAnswers_tabulate, whole_tabulate,
    longestRun_append hne hv hr hn]
  rfl

theorem captures?_group (content next : Tree) (text : List Char) :
    (group content next).captures? text =
      ((content.append next).captures? text).or (next.captures? text) := by
  rw [captures?, table, table_atEnd, table_captures?, orElse_tabulate, whole_tabulate]

/-! ### A concatenation -/

theorem captures?_append (tree later : Tree) (text : List Char) :
    (tree.append later).captures? text = tree.answer later.captures? text := by
  rw [captures?, table_append, table_atEnd, table_tabulate, whole_tabulate]

end Tree

end UrlRouting
