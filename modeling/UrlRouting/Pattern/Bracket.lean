import UrlRouting.Pattern.Token

/-! # Brackets of a token sequence

* `checkBrackets` counts the open groups from left to right and reports the first close without an
  open, or else the number of groups left open.
* `groupEnd tokens start` is the index of the close that ends the group around position `start`.
-/

namespace UrlRouting.Token

/-- Success if the brackets pair up, given that `level` groups are open before the token at
`index`. -/
def checkBracketsFrom (index level : Nat) : List Token → Except Imbalance Unit
  | [] => if level = 0 then .ok () else .error (.unclosed level)
  | groupOpen :: rest => checkBracketsFrom (index + 1) (level + 1) rest
  | groupClose :: rest =>
    match level with
    | 0 => .error (.unopened index)
    | level + 1 => checkBracketsFrom (index + 1) level rest
  | literal _ :: rest => checkBracketsFrom (index + 1) level rest
  | placeholder _ :: rest => checkBracketsFrom (index + 1) level rest

/-- Success if the brackets of a token sequence pair up. -/
def checkBrackets (tokens : List Token) : Except Imbalance Unit := checkBracketsFrom 0 0 tokens

/-- The number of tokens before the close of the group around all of them, inside `inner` further
groups; the number of all tokens if that close does not occur. -/
def closeDistance (inner : Nat) : List Token → Nat
  | [] => 0
  | groupOpen :: rest => closeDistance (inner + 1) rest + 1
  | groupClose :: rest =>
    match inner with
    | 0 => 0
    | inner + 1 => closeDistance inner rest + 1
  | literal _ :: rest => closeDistance inner rest + 1
  | placeholder _ :: rest => closeDistance inner rest + 1

/-- The index of the close that ends the group around position `start`; the number of tokens if
there is none. -/
def groupEnd (tokens : List Token) (start : Nat) : Nat :=
  min start tokens.length + closeDistance 0 (tokens.drop start)

theorem le_groupEnd {tokens : List Token} {start : Nat} (h : start ≤ tokens.length) :
    start ≤ groupEnd tokens start := by
  unfold groupEnd
  omega

end UrlRouting.Token
