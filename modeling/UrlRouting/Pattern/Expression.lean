import UrlRouting.Pattern.Token

/-! # The regular expression of a pattern

A literal stands for itself with its special characters escaped, a placeholder for one or more
characters other than `/` in a capturing group, and an optional group for a group that may be
absent; the whole is anchored at both ends. -/

namespace UrlRouting.Token

/-- The characters that are escaped in a regular expression. -/
def isSpecial (c : Char) : Bool := "\\.+*?()|[]\x7b\x7d^$#&-~".toList.contains c

/-- A character that stands for itself in a regular expression. -/
def escapeSpecial (c : Char) : List Char := if isSpecial c then ['\\', c] else [c]

/-- The regular expression of one token. -/
def expression : Token → List Char
  | literal text => text.toList.flatMap escapeSpecial
  | placeholder _ => "([^/]+)".toList
  | groupOpen => "(?:".toList
  | groupClose => ")?".toList

/-- The regular expression of a token sequence; the brackets need not pair up. -/
def expressionOf (tokens : List Token) : String :=
  String.ofList ('^' :: tokens.flatMap expression ++ ['$'])

end UrlRouting.Token
