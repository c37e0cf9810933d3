import UrlRouting.Pattern.Bracket
import UrlRouting.Pattern.Tree
import UrlRouting.Pattern.Expression

/-! # Compiled patterns

`Pattern.compile` reads the text of a pattern. Four conditions are tested in this order, and the
first that fails decides the fault: every brace belongs to a placeholder, the brackets pair up, the
names of the placeholders are distinct, and the nesting depth is within the limit. -/

namespace UrlRouting

/-- A pattern with its tokens and the names of its placeholders. -/
structure Pattern where
  text : String
  tokens : List Token
  placeholders : List String
  collected : placeholders = Token.names tokens
deriving DecidableEq, Repr

namespace Pattern

/-- The greatest nesting depth of a pattern. -/
def depthLimit : Nat := 250

/-- The pattern with this text. -/
def compile (text : String) : Except PatternError Pattern := do
  let tokens ← Token.scan text
  (Token.checkBrackets tokens).mapError .unbalanced
  match h : Token.distinctNames tokens with
  | .error fault => throw fault
  | .ok names =>
    if (Tree.ofTokens tokens).depth ≤ depthLimit then
      return ⟨text, tokens, names, Token.names_of_distinctNames h⟩
    else
      throw .nestedTooDeep

/-- The nested form of the pattern. -/
def tree (pattern : Pattern) : Tree := Tree.ofTokens pattern.tokens

/-- The regular expression that matches what the pattern matches. -/
def expression (pattern : Pattern) : String := Token.expressionOf pattern.tokens

end Pattern

end UrlRouting
