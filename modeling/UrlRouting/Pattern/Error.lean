/-! # Faults of a pattern

What can be wrong with the text of a pattern, with the message for each fault that has one. -/

namespace UrlRouting

/-- Brackets that do not pair up. -/
inductive Imbalance where
  /-- The token at this index closes a group, and none is open. -/
  | unopened (index : Nat)
  /-- So many groups are open at the end. -/
  | unclosed (groups : Nat)
deriving DecidableEq, Repr

/-- The message of an imbalance. -/
def Imbalance.message : Imbalance → String
  | .unopened index => s!"found closing bracket without matching opening bracket at token {index}"
  | .unclosed groups => s!"found unbalanced brackets, {groups} optional group(s) left open"

/-- A fault of a pattern. -/
inductive PatternError where
  /-- The brace at this offset, in bytes of UTF-8, belongs to no placeholder. -/
  | malformedPlaceholder (offset : Nat)
  /-- The brackets do not pair up. -/
  | unbalanced (imbalance : Imbalance)
  /-- Two placeholders have this name. -/
  | repeatedPlaceholder (name : String)
  /-- The pattern is nested beyond the limit. -/
  | nestedTooDeep
deriving DecidableEq, Repr

/-- The message of a fault; nesting beyond the limit has none. -/
def PatternError.message? : PatternError → Option String
  | .malformedPlaceholder offset =>
    some (s!"malformed placeholder at byte {offset}, expected `\x7bname\x7d` " ++
      "with letters and digits only")
  | .unbalanced imbalance => some imbalance.message
  | .repeatedPlaceholder name =>
    some s!"placeholder `\x7b{name}\x7d` appears more than once in the pattern"
  | .nestedTooDeep => none

end UrlRouting
