import UrlRouting.Parameters
import UrlRouting.Pattern.Bracket
import UrlRouting.Route.Error
import UrlRouting.Url.Segment

/-! # Writing a path

A walk over the tokens of a pattern that writes the path for given values.

* The walk holds a cursor and one level per open group, each with the text written so far.
* A placeholder without a value is a fault outside every group. Inside a group it drops the
  innermost group: the cursor moves past its close, and its text is discarded.
* After a group is dropped, later groups directly under the same parent are passed over, so no
  later value moves to the place of an omitted one.
-/

namespace UrlRouting

/-- What has been written at one level of nesting. -/
structure Level where
  text : String
  /-- A group directly under this level has been dropped. -/
  dropped : Bool
deriving DecidableEq, Repr

/-- A level without text. -/
def Level.blank : Level := ⟨"", false⟩

/-- A position in the tokens, with the innermost level and the levels around it. -/
structure Walk where
  cursor : Nat
  level : Level
  outer : List Level
deriving DecidableEq, Repr

namespace Walk

/-- The walk before the first token. -/
def start : Walk := ⟨0, Level.blank, []⟩

/-- The number of open groups. -/
def depth (walk : Walk) : Nat := walk.outer.length

/-- The walk with its cursor moved past an index. -/
def movePast (walk : Walk) (index : Nat) : Walk := { walk with cursor := index + 1 }

/-- The walk with a text added to the innermost level. -/
def write (walk : Walk) (text : String) : Walk :=
  { walk with level := { walk.level with text := walk.level.text ++ text } }

/-- A group begins. -/
def enter (walk : Walk) : Walk :=
  { walk with level := Level.blank, outer := walk.level :: walk.outer }

/-- A group ends, and its text goes to the level around it. -/
def leave (walk : Walk) : Walk :=
  match walk.outer with
  | [] => walk
  | parent :: outer =>
    { walk with level := { parent with text := parent.text ++ walk.level.text }, outer }

/-- A group is dropped: its text is discarded, and the level around it remembers the drop. -/
def abandon (walk : Walk) : Walk :=
  match walk.outer with
  | [] => walk
  | parent :: outer => { walk with level := { parent with dropped := true }, outer }

/-- The walk after the token at the cursor. -/
def step (tokens : List Token) (values : Parameters) (walk : Walk) :
    Token → Except AssembleError Walk
  | .literal text => .ok ((walk.write text).movePast walk.cursor)
  | .placeholder name =>
    match values.get? name with
    | some value => .ok ((walk.write (Segment.encode value)).movePast walk.cursor)
    | none =>
      if walk.depth = 0 then .error (.missingParameter name)
      else .ok (walk.abandon.movePast (Token.groupEnd tokens (walk.cursor + 1)))
  | .groupOpen =>
    if walk.level.dropped then .ok (walk.movePast (Token.groupEnd tokens (walk.cursor + 1)))
    else .ok (walk.enter.movePast walk.cursor)
  | .groupClose => .ok (walk.leave.movePast walk.cursor)

theorem cursor_lt_of_step {tokens : List Token} {values : Parameters} {walk after : Walk}
    {token : Token} (hc : walk.cursor < tokens.length)
    (h : step tokens values walk token = .ok after) : walk.cursor < after.cursor := by
  have hend := Token.le_groupEnd (show walk.cursor + 1 ≤ tokens.length by omega)
  cases token <;> simp only [step] at h
  case literal => cases h; exact Nat.lt_succ_self _
  case groupClose => cases h; exact Nat.lt_succ_self _
  case groupOpen =>
    split at h
    · cases h
      simp only [movePast]
      omega
    · cases h
      exact Nat.lt_succ_self _
  case placeholder name =>
    split at h
    · cases h
      exact Nat.lt_succ_self _
    · split at h
      · cases h
      · cases h
        simp only [movePast]
        omega

/-- The walk after the last token. -/
def run (tokens : List Token) (values : Parameters) (walk : Walk) : Except AssembleError Walk :=
  if h : walk.cursor < tokens.length then
    match _hs : step tokens values walk tokens[walk.cursor] with
    | .error fault => .error fault
    | .ok after => run tokens values after
  else .ok walk
termination_by tokens.length - walk.cursor
decreasing_by
  have := cursor_lt_of_step h _hs
  omega

/-- The outermost level. -/
def outermost (walk : Walk) : Level := walk.outer.getLast?.getD walk.level

/-- The path that a token sequence gives for these values. -/
def path (tokens : List Token) (values : Parameters) : Except AssembleError String :=
  (run tokens values start).map fun walk => walk.outermost.text

end Walk

end UrlRouting
