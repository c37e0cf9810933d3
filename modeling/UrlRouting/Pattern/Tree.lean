import UrlRouting.Pattern.Token

/-! # Trees of a pattern

The nested form of a token sequence: each group holds its content, and each item is followed by
the rest of the sequence it stands in.

* `Tree.tokens` writes a tree as a token sequence; its brackets pair up.
* `Tree.ofTokens` is the tree of a token sequence whose brackets pair up.
-/

namespace UrlRouting

/-- A sequence of items. -/
inductive Tree where
  /-- The end of the sequence. -/
  | done
  /-- A text that stands for itself. -/
  | literal (text : String) (next : Tree)
  /-- A named place for a value. -/
  | placeholder (name : String) (next : Tree)
  /-- An optional group. -/
  | group (content next : Tree)
deriving DecidableEq, Repr

namespace Tree

/-- The token sequence of a tree. -/
def tokens : Tree → List Token
  | done => []
  | literal text next => .literal text :: next.tokens
  | placeholder name next => .placeholder name :: next.tokens
  | group content next => .groupOpen :: (content.tokens ++ .groupClose :: next.tokens)

/-- The tree of the tokens up to the first close that no open precedes, and the trees of the
sequences that follow that close and the later ones. An open that no close follows takes the rest
as its content. -/
def nest : List Token → Tree × List Tree
  | [] => (done, [])
  | .literal text :: rest =>
    let (tree, outer) := nest rest
    (literal text tree, outer)
  | .placeholder name :: rest =>
    let (tree, outer) := nest rest
    (placeholder name tree, outer)
  | .groupClose :: rest =>
    let (tree, outer) := nest rest
    (done, tree :: outer)
  | .groupOpen :: rest =>
    match nest rest with
    | (content, next :: outer) => (group content next, outer)
    | (content, []) => (group content done, [])

/-- The tree of a token sequence whose brackets pair up. -/
def ofTokens (tokens : List Token) : Tree := (nest tokens).1

/-- Reading inverts writing, whatever follows the next close. -/
theorem nest_tokens_append (tree : Tree) (rest : List Token) :
    nest (tree.tokens ++ .groupClose :: rest) = (tree, (nest rest).1 :: (nest rest).2) := by
  induction tree generalizing rest with
  | done => rfl
  | literal text next ih => simp [tokens, nest, ih]
  | placeholder name next ih => simp [tokens, nest, ih]
  | group content next ihc ihn => simp [tokens, nest, ihc, ihn]

theorem ofTokens_tokens (tree : Tree) : ofTokens tree.tokens = tree := by
  unfold ofTokens
  induction tree with
  | done => rfl
  | literal text next ih => simp [tokens, nest, ih]
  | placeholder name next ih => simp [tokens, nest, ih]
  | group content next _ ihn => simp [tokens, nest, nest_tokens_append, ihn]

/-! ### Nesting depth -/

/-- The number of items of a sequence, each character of a literal counted as one. -/
def itemCount : Tree → Nat
  | done => 0
  | literal text next => text.length + next.itemCount
  | placeholder _ next => next.itemCount + 1
  | group _ next => next.itemCount + 1

/-- The depth that the items of a sequence add: three for a placeholder; two for a group, one more
if its content is a sequence of two or more items, and what the content adds. -/
def depthBelow : Tree → Nat
  | done => 0
  | literal _ next => next.depthBelow
  | placeholder _ next => max 3 next.depthBelow
  | group content next =>
    let sequence := if content.itemCount < 2 then 0 else 1
    max (2 + sequence + content.depthBelow) next.depthBelow

/-- The nesting depth of a whole pattern. -/
def depth (tree : Tree) : Nat := 1 + tree.depthBelow

end Tree

end UrlRouting
