import UrlRouting.Proofs.Expressions
import UrlRouting.Proofs.Matching
import UrlRouting.Proofs.Scanning

/-! # Patterns from their expressions

A compiled pattern keeps a regular expression and a list of names. Together they hold the pattern:
the expression is read as the outline of the tokens, the `k`-th name belongs to the `k`-th capturing
group, and scanned tokens differ from their outline in names only.

* `Token.withNames_outline`: with their names the outline is the tokens again.
* `Pattern.tree_of_expression`: so the tree that is matched with is the one of the expression.
* `Route.matchPath_of_expression`: what a path gives is found by the expression, with the names of
  its groups. -/

namespace UrlRouting

namespace Token

/-- The tokens with these names for the placeholders, from the first on. -/
def withNames : List String → List Token → List Token
  | _, [] => []
  | name :: names, placeholder _ :: rest => placeholder name :: withNames names rest
  | names, token :: rest => token :: withNames names rest

theorem withNames_cons_of_none {token : Token} (h : token.name? = none) (names : List String)
    (rest : List Token) : withNames names (token :: rest) = token :: withNames names rest := by
  cases token with
  | placeholder name => cases h
  | _ => cases names <;> rfl

theorem withNames_joinLiteral (names : List String) (text : String) (tokens : List Token) :
    withNames names (joinLiteral text tokens) = joinLiteral text (withNames names tokens) := by
  by_cases ht : text = ""
  · rw [ht, joinLiteral_empty, joinLiteral_empty]
  cases tokens with
  | nil => cases names <;> simp [joinLiteral, withNames, ht]
  | cons token rest => cases token <;> cases names <;> simp [joinLiteral, withNames, ht]

theorem joinLiteral_of_canonical {text : String} {rest : List Token}
    (h : Canonical (literal text :: rest)) : joinLiteral text rest = literal text :: rest := by
  obtain ⟨⟨hne, -⟩, hnext, -⟩ := canonical_cons_iff.mp h
  cases rest with
  | nil => exact if_neg hne
  | cons next rest =>
      cases next with
      | literal second => exact nomatch hnext rfl _ rfl
      | _ => exact if_neg hne

theorem withNames_outline {tokens : List Token} (h : Canonical tokens) :
    withNames (names tokens) (outline tokens) = tokens := by
  induction tokens with
  | nil => rfl
  | cons token rest ih =>
      have hrest := ih (canonical_cons_iff.mp h).2.2
      cases token with
      | literal text =>
          rw [names_cons_of_none rfl, outline, withNames_joinLiteral, hrest,
            joinLiteral_of_canonical h]
      | placeholder name => rw [names_cons_of_some rfl, outline, withNames, hrest]
      | groupOpen => rw [names_cons_of_none rfl, outline, withNames_cons_of_none rfl, hrest]
      | groupClose => rw [names_cons_of_none rfl, outline, withNames_cons_of_none rfl, hrest]

end Token

namespace Pattern

variable {text : String} {pattern : Pattern}

/-- The expression and the names of a compiled pattern give its tokens. -/
theorem tokens_of_expression (h : compile text = .ok pattern) :
    (Token.readExpression pattern.expression).map (Token.withNames pattern.placeholders) =
      some pattern.tokens := by
  have hscan := (compile_eq_ok h).1
  have hcanonical : Token.Canonical pattern.tokens := (Token.scanFrom_eq_ok_iff.mp hscan).2
  rw [expression, Token.readExpression_expressionOf, pattern.collected]
  exact congrArg some (Token.withNames_outline hcanonical)

/-- The tree that is read from the expression, with the names, is the one that is matched with. -/
theorem tree_of_expression (h : compile text = .ok pattern) :
    (Token.readExpression pattern.expression).map
      (fun tokens => Tree.ofTokens (Token.withNames pattern.placeholders tokens)) =
        some pattern.tree := by
  rw [← Function.comp_def Tree.ofTokens, ← Option.map_map, tokens_of_expression h]
  rfl

end Pattern

/-- The parameters of a path are those that the groups of the expression capture. -/
theorem Route.matchPath_of_expression {text : String} {defaults : Parameters} {route : Route}
    (h : compile text defaults = .ok route) (path : String) :
    route.matchPath path =
      (Token.readExpression route.pattern.expression).bind fun tokens =>
        ((Tree.ofTokens (Token.withNames route.pattern.placeholders tokens)).captures?
          path.toList).map fun captures => defaults.setAll (decodeCaptures captures) := by
  obtain ⟨hp, rfl⟩ := compile_eq_ok h
  obtain ⟨tokens, ht, htree⟩ := Option.map_eq_some_iff.mp (Pattern.tree_of_expression hp)
  rw [ht, Option.bind_some, htree, matchPath]

end UrlRouting
