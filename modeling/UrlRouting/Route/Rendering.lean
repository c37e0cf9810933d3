import UrlRouting.Parameters
import UrlRouting.Pattern.Tree
import UrlRouting.Url.Segment

/-! # The path of a tree

The path for given values, by recursion on the nested form of a pattern. A group is dropped if one
of the placeholders directly in it has no value, or if an earlier group of the same sequence was
dropped. -/

namespace UrlRouting.Tree

/-- Every placeholder directly in the sequence has a value. -/
def isFilled (values : Parameters) : Tree → Bool
  | done => true
  | literal _ next => next.isFilled values
  | placeholder name next => values.contains name && next.isFilled values
  | group _ next => next.isFilled values

/-- The text of a sequence; its groups are dropped if `dropping`. A placeholder without a value
gives no text. -/
def renderFrom (values : Parameters) (dropping : Bool) : Tree → String
  | done => ""
  | literal text next => text ++ next.renderFrom values dropping
  | placeholder name next =>
    ((values.get? name).map Segment.encode).getD "" ++ next.renderFrom values dropping
  | group content next =>
    if dropping || !content.isFilled values then next.renderFrom values true
    else content.renderFrom values false ++ next.renderFrom values false

/-- The path of a tree. -/
def render (values : Parameters) (tree : Tree) : String := tree.renderFrom values false

/-- The first placeholder outside every group that has no value. -/
def firstMissing? (values : Parameters) : Tree → Option String
  | done => none
  | literal _ next => next.firstMissing? values
  | placeholder name next => if values.contains name then next.firstMissing? values else some name
  | group _ next => next.firstMissing? values

end UrlRouting.Tree
