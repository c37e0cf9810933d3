import UrlRouting.Parameters
import UrlRouting.Route.Error

/-! # What a route does

A router asks two things of its routes, whatever they are made from: the parameters of a path, and
the URL for parameters. -/

namespace UrlRouting

/-- A type of routes. -/
class RouteLike (ρ : Type) where
  /-- The parameters of a path, if the route applies to it. -/
  matchPath : ρ → String → Option Parameters
  /-- The URL for parameters. -/
  assemble : ρ → Parameters → Except AssembleError String

end UrlRouting
