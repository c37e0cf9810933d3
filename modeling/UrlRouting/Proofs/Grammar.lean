import UrlRouting.Proofs.Compiled
import UrlRouting.Proofs.Brackets
import UrlRouting.Proofs.Strays

/-! # The grammar of patterns

The texts that can be scanned with brackets that pair up are those of one recursive grammar,

    Pattern ::= Item*
    Item    ::= character | '{' name '}' | '[' Pattern ']'

in which a character is neither a brace nor a bracket and a name is made of ASCII letters and
digits.

* `Derivation`: the derivations of a text, with the names of their placeholders and their depth.
* `Derivation.exists_tree`, `Tree.exists_derivation`: derivations and the trees of the reader are
  the same but for the characters, which the trees gather in literals.
* `exists_derivation_iff`: the reader finds the names and the depth of a derivation.
* `nonempty_derivation_iff`: a text has a derivation if no brace is stray and its brackets balance. -/

namespace UrlRouting

/-- A derivation of a text in the grammar of patterns, read from left to right: each item is
followed by the rest of the sequence it stands in. -/
inductive Derivation : List Char → Type where
  /-- The end of the sequence. -/
  | done : Derivation []
  /-- A character that stands for itself. -/
  | character {c : Char} {text : List Char} (plain : c ∉ Token.reserved) (next : Derivation text) :
    Derivation (c :: text)
  /-- A named place for a value. -/
  | placeholder {name : String} {text : List Char} (isName : Token.IsName name)
    (next : Derivation text) : Derivation ('{' :: (name.toList ++ '}' :: text))
  /-- An optional group. -/
  | group {inner text : List Char} (content : Derivation inner) (next : Derivation text) :
    Derivation ('[' :: (inner ++ ']' :: text))

namespace Derivation

variable {text : List Char}

/-- The names of the placeholders, in order. -/
def names : {text : List Char} → Derivation text → List String
  | _, done => []
  | _, character _ next => next.names
  | _, @placeholder name _ _ next => name :: next.names
  | _, group content next => content.names ++ next.names

/-- The number of items of the sequence. -/
def itemCount : {text : List Char} → Derivation text → Nat
  | _, done => 0
  | _, character _ next => next.itemCount + 1
  | _, placeholder _ next => next.itemCount + 1
  | _, group _ next => next.itemCount + 1

/-- The greatest depth among the items: three for a placeholder; two for a group, one more if it
holds two or more items, and what they add. -/
def depthBelow : {text : List Char} → Derivation text → Nat
  | _, done => 0
  | _, character _ next => next.depthBelow
  | _, placeholder _ next => max 3 next.depthBelow
  | _, group content next =>
    max (2 + (if 2 ≤ content.itemCount then 1 else 0) + content.depthBelow) next.depthBelow

/-- The nesting depth: one for the whole text and what its items add. -/
def depth (d : Derivation text) : Nat := 1 + d.depthBelow

/-- The tree writes the text that is derived, with the same names, number of items and depth. -/
structure IsOf (tree : Tree) (d : Derivation text) : Prop where
  chars : Token.chars tree.tokens = text
  names : Token.names tree.tokens = d.names
  itemCount : tree.itemCount = d.itemCount
  depthBelow : tree.depthBelow = d.depthBelow

theorem IsOf.done : IsOf .done Derivation.done := ⟨rfl, rfl, rfl, rfl⟩

theorem IsOf.literal_nil {tree : Tree} {d : Derivation text} (h : IsOf tree d) :
    IsOf (.literal (String.ofList []) tree) d := by
  refine ⟨h.chars, h.names, ?_, h.depthBelow⟩
  rw [Tree.itemCount, String.length_ofList, List.length_nil, Nat.zero_add, h.itemCount]

theorem IsOf.literal_cons {tree : Tree} {d : Derivation text} {c : Char} {run : List Char}
    (hc : c ∉ Token.reserved) (h : IsOf (.literal (String.ofList run) tree) d) :
    IsOf (.literal (String.ofList (c :: run)) tree) (.character hc d) := by
  obtain ⟨htext, hnames, hitems, hdepth⟩ := h
  rw [Tree.tokens, Token.chars_cons, Token.write, String.toList_ofList] at htext
  rw [Tree.itemCount, String.length_ofList] at hitems
  refine ⟨?_, hnames, ?_, hdepth⟩
  · rw [Tree.tokens, Token.chars_cons, Token.write, String.toList_ofList, List.cons_append, htext]
  · rw [Tree.itemCount, String.length_ofList, List.length_cons, Derivation.itemCount, ← hitems,
      Nat.add_right_comm]

theorem IsOf.placeholder {tree : Tree} {d : Derivation text} {name : String}
    (hn : Token.IsName name) (h : IsOf tree d) :
    IsOf (.placeholder name tree) (.placeholder hn d) := by
  obtain ⟨htext, hnames, hitems, hdepth⟩ := h
  refine ⟨?_, congrArg (name :: ·) hnames, congrArg (· + 1) hitems, congrArg (max 3) hdepth⟩
  rw [Tree.tokens, Token.chars_cons, Token.toList_write_placeholder, htext]
  simp

theorem IsOf.group {content next : Tree} {inner : List Char} {dc : Derivation inner}
    {dn : Derivation text} (hc : IsOf content dc) (hn : IsOf next dn) :
    IsOf (.group content next) (.group dc dn) := by
  refine ⟨?_, ?_, congrArg (· + 1) hn.itemCount, ?_⟩
  · rw [Tree.tokens, Token.chars_cons, Token.chars_append, Token.chars_cons, hc.chars, hn.chars]
    rfl
  · rw [Token.names_group, hc.names, hn.names, Derivation.names]
  · rw [Tree.depthBelow, Derivation.depthBelow, hc.depthBelow, hn.depthBelow, hc.itemCount]
    split <;> split <;> omega

end Derivation

/-! ### From derivations to trees -/

namespace Tree

/-- The tree with a character before its text. -/
def prepend (c : Char) : Tree → Tree
  | literal text next => literal (String.ofList (c :: text.toList)) next
  | tree => literal (String.ofList [c]) tree

theorem canonical_prepend {c : Char} {tree : Tree} (hc : c ∉ Token.reserved)
    (h : Token.Canonical tree.tokens) : Token.Canonical (prepend c tree).tokens := by
  have hone : Token.IsText (String.ofList [c]) :=
    Token.isText_iff.mpr ⟨c, [], rfl, Token.isPlain_iff.mpr hc, nofun⟩
  cases tree with
  | literal text next =>
      obtain ⟨ht, hl, hn⟩ := Token.canonical_cons_iff.mp h
      obtain ⟨d, run, rfl, hd, hrun⟩ := Token.isText_iff.mp ht
      refine Token.canonical_cons_iff.mpr ⟨?_, hl, hn⟩
      rw [String.toList_ofList]
      exact Token.isText_iff.mpr ⟨c, d :: run, rfl, Token.isPlain_iff.mpr hc,
        List.forall_mem_cons.mpr ⟨hd, hrun⟩⟩
  | done => exact Token.canonical_cons_iff.mpr ⟨hone, fun _ => nofun, h⟩
  | placeholder name next =>
      refine Token.canonical_cons_iff.mpr ⟨hone, ?_, h⟩
      rintro - _ ⟨⟩
      rfl
  | group content next =>
      refine Token.canonical_cons_iff.mpr ⟨hone, ?_, h⟩
      rintro - _ ⟨⟩
      rfl

end Tree

namespace Derivation

theorem IsOf.prepend {text : List Char} {c : Char} {tree : Tree} {d : Derivation text}
    (hc : c ∉ Token.reserved) (h : IsOf tree d) : IsOf (tree.prepend c) (.character hc d) := by
  cases tree with
  | literal text next =>
      rw [← String.ofList_toList (s := text)] at h
      exact h.literal_cons hc
  | done => exact h.literal_nil.literal_cons hc
  | placeholder name next => exact h.literal_nil.literal_cons hc
  | group content next => exact h.literal_nil.literal_cons hc

/-- Each derivation is that of a tree with canonical tokens: the characters between other items
make up one literal. -/
theorem exists_tree {text : List Char} (d : Derivation text) :
    ∃ tree : Tree, Token.Canonical tree.tokens ∧ IsOf tree d := by
  induction d with
  | done => exact ⟨.done, Token.canonical_nil, .done⟩
  | character hc next ih =>
      obtain ⟨tree, ht, hd⟩ := ih
      exact ⟨tree.prepend _, Tree.canonical_prepend hc ht, hd.prepend hc⟩
  | placeholder hn next ih =>
      obtain ⟨tree, ht, hd⟩ := ih
      exact ⟨.placeholder _ tree, Token.canonical_cons_iff.mpr ⟨hn, nofun, ht⟩, hd.placeholder hn⟩
  | group content next ihc ihn =>
      obtain ⟨inner, hi, hc⟩ := ihc
      obtain ⟨tree, ht, hn⟩ := ihn
      have happ := Token.canonical_append_close_iff.mpr ⟨hi, ht⟩
      exact ⟨.group inner tree, Token.canonical_cons_iff.mpr ⟨trivial, nofun, happ⟩, hc.group hn⟩

end Derivation

/-! ### From trees to derivations -/

namespace Tree

theorem exists_derivation_literal {tree : Tree} {text run : List Char} {d : Derivation text}
    (hrun : ∀ c ∈ run, c ∉ Token.reserved) (h : Derivation.IsOf tree d) :
    ∃ text, ∃ d : Derivation text, Derivation.IsOf (literal (String.ofList run) tree) d := by
  induction run with
  | nil => exact ⟨text, d, h.literal_nil⟩
  | cons c run ih =>
      obtain ⟨hc, hrest⟩ := List.forall_mem_cons.mp hrun
      obtain ⟨text, d, hd⟩ := ih hrest
      exact ⟨c :: text, .character hc d, hd.literal_cons hc⟩

/-- Each tree with well-formed tokens has a derivation. -/
theorem exists_derivation {tree : Tree} (h : ∀ token ∈ tree.tokens, token.WellFormed) :
    ∃ text, ∃ d : Derivation text, Derivation.IsOf tree d := by
  induction tree with
  | done => exact ⟨[], .done, .done⟩
  | literal text next ih =>
      obtain ⟨ht, hn⟩ := List.forall_mem_cons.mp h
      obtain ⟨rest, d, hd⟩ := ih hn
      rw [← String.ofList_toList (s := text)]
      exact exists_derivation_literal ht.2 hd
  | placeholder name next ih =>
      obtain ⟨ht, hn⟩ := List.forall_mem_cons.mp h
      obtain ⟨rest, d, hd⟩ := ih hn
      exact ⟨_, .placeholder ht d, hd.placeholder ht⟩
  | group content next ihc ihn =>
      obtain ⟨-, hr⟩ := List.forall_mem_cons.mp h
      obtain ⟨hc, hn⟩ := List.forall_mem_append.mp hr
      obtain ⟨inner, dc, hdc⟩ := ihc hc
      obtain ⟨rest, dn, hdn⟩ := ihn (List.forall_mem_cons.mp hn).2
      exact ⟨_, .group dc dn, hdc.group hdn⟩

end Tree

/-! ### Derivations of a scanned text -/

/-- A text has a derivation with certain names and depth if its tokens are a tree with these. -/
theorem exists_derivation_iff {text : String} {names : List String} {depth : Nat} :
    (∃ d : Derivation text.toList, d.names = names ∧ d.depth = depth) ↔
      ∃ tokens, Token.scan text = .ok tokens ∧ Token.checkBrackets tokens = .ok () ∧
        Token.names tokens = names ∧ (Tree.ofTokens tokens).depth = depth := by
  constructor
  · rintro ⟨d, rfl, rfl⟩
    obtain ⟨tree, hc, htext, hnames, -, hdepth⟩ := d.exists_tree
    refine ⟨tree.tokens, Token.scanFrom_eq_ok_iff.mpr ⟨htext.symm, hc⟩,
      Token.checkBrackets_eq_ok_iff.mpr ⟨tree, rfl⟩, hnames, ?_⟩
    rw [Tree.ofTokens_tokens, Tree.depth, Derivation.depth, hdepth]
  · rintro ⟨tokens, hs, hb, rfl, rfl⟩
    obtain ⟨htext, hc⟩ := Token.scanFrom_eq_ok_iff.mp hs
    have ht := Tree.tokens_ofTokens hb
    rw [← ht] at htext hc
    obtain ⟨_, d, rfl, hnames, -, hdepth⟩ := Tree.exists_derivation hc.wellFormed
    rw [htext]
    refine ⟨d, ?_, ?_⟩
    · rw [← hnames, ht]
    · rw [Derivation.depth, Tree.depth, hdepth]

/-- A text has a derivation if none of its braces is stray, it never closes more groups than it
opens, and it closes all that it opens. -/
theorem nonempty_derivation_iff {text : String} :
    Nonempty (Derivation text.toList) ↔
      ¬ Token.HasStray text.toList ∧ ¬ Token.Overclosed 0 text.toList ∧
        text.toList.count '[' = text.toList.count ']' := by
  constructor
  · rintro ⟨d⟩
    obtain ⟨tokens, hs, hb, -⟩ := exists_derivation_iff.mp ⟨d, rfl, rfl⟩
    have ho : ¬ Token.Overclosed 0 text.toList := by
      intro ho
      obtain ⟨index, hi⟩ := (Token.checkBrackets_unopened_iff hs).mpr ho
      rw [hb] at hi
      cases hi
    refine ⟨Token.exists_scanFrom_iff.mp ⟨tokens, hs⟩, ho, ?_⟩
    have hle : text.toList.count ']' ≤ text.toList.count '[' := by
      simpa using Token.le_of_not_overclosed ho
    rcases Nat.eq_or_lt_of_le hle with heq | hlt
    · exact heq.symm
    · obtain ⟨groups, hg⟩ := Nat.exists_eq_add_of_lt hlt
      have hu : Token.checkBrackets tokens = .error (.unclosed (groups + 1)) :=
        (Token.checkBrackets_unclosed_iff hs).mpr ⟨ho, Nat.succ_pos groups, hg⟩
      rw [hb] at hu
      cases hu
  · rintro ⟨hn, ho, hcount⟩
    obtain ⟨tokens, hs⟩ := Token.exists_scanFrom_iff.mpr hn
    cases hb : Token.checkBrackets tokens with
    | ok _ =>
        obtain ⟨d, -⟩ := exists_derivation_iff.mpr ⟨tokens, hs, hb, rfl, rfl⟩
        exact ⟨d⟩
    | error imbalance =>
        cases imbalance with
        | unopened index => exact absurd ((Token.checkBrackets_unopened_iff hs).mp ⟨index, hb⟩) ho
        | unclosed groups =>
            obtain ⟨-, hpos, hg⟩ := (Token.checkBrackets_unclosed_iff hs).mp hb
            omega

end UrlRouting
