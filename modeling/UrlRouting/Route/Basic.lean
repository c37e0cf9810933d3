import UrlRouting.Matching.Captures
import UrlRouting.Pattern.Compiled
import UrlRouting.Route.Interface
import UrlRouting.Route.Walk
import UrlRouting.Url.Query

/-! # Routes

A compiled pattern with default values.

* `Route.matchPath` gives the parameters of a path that the whole pattern matches: the defaults,
  and over them the decoded values of the placeholders that took part.
* `Route.assemble` writes a URL for given parameters over the defaults. Parameters that are no
  placeholders become the query; defaults never do.
-/

namespace UrlRouting

/-- A compiled pattern with default values. -/
structure Route where
  pattern : Pattern
  defaults : Parameters
deriving Repr

namespace Route

/-- The route of the text of a pattern. -/
def compile (text : String) (defaults : Parameters) : Except PatternError Route :=
  (Pattern.compile text).map fun pattern => ⟨pattern, defaults⟩

/-- The decoded values of captures. -/
def decodeCaptures (captures : Captures) : List (String × String) :=
  captures.map fun (name, value) => (name, Segment.decode (String.ofList value))

/-- The parameters of a path, without the query. -/
def matchPath (route : Route) (path : String) : Option Parameters :=
  (route.pattern.tree.captures? path.toList).map fun captures =>
    route.defaults.setAll (decodeCaptures captures)

/-- The parameters that are no placeholders of the pattern. -/
def queryPairs (route : Route) (parameters : Parameters) : List (String × String) :=
  parameters.entries.filter fun entry => !route.pattern.placeholders.contains entry.1

/-- The URL for parameters over the defaults. -/
def assemble (route : Route) (parameters : Parameters) : Except AssembleError String := do
  let path ← Walk.path route.pattern.tokens (parameters.mergedOver route.defaults)
  let query := Query.encode (route.queryPairs parameters)
  return if query.isEmpty then path else path ++ "?" ++ query

instance : RouteLike Route := ⟨matchPath, assemble⟩

end Route

end UrlRouting
