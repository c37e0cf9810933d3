import Std.Data.HashMap
import UrlRouting.Definition.Error
import UrlRouting.Route.Interface

/-! # Routers

Named routes in the order of their registration.

* `add` registers a route under a name that is not taken; otherwise nothing changes.
* `matchRoute` gives the first registered route that matches a path.
* `assemble` writes a URL for the route of a name, which an index finds without a search.
-/

namespace UrlRouting

/-- Named routes, and the position of each name among them. -/
structure Router (ρ : Type) where
  routes : Array (String × ρ)
  index : Std.HashMap String Nat

/-- A matched route: its name and the parameters of the path. -/
structure RouteMatch where
  name : String
  parameters : Parameters

namespace Router

variable {ρ : Type}

/-- A router without routes. -/
def empty : Router ρ := ⟨#[], ∅⟩

instance : EmptyCollection (Router ρ) := ⟨empty⟩

/-- The result of registering one more route, and the router after that. -/
def add (router : Router ρ) (name : String) (route : ρ) : Except DefinitionError Unit × Router ρ :=
  if router.index.contains name then (.error (.nameTaken name), router)
  else
    (.ok (), ⟨router.routes.push (name, route), router.index.insert name router.routes.size⟩)

/-- The route of a name. -/
def route? (router : Router ρ) (name : String) : Option ρ := do
  let position ← router.index[name]?
  let entry ← router.routes[position]?
  return entry.2

/-- The names in the order of registration. -/
def names (router : Router ρ) : List String := router.routes.toList.map Prod.fst

/-- The number of routes. -/
def size (router : Router ρ) : Nat := router.routes.size

/-- There are no routes. -/
def isEmpty (router : Router ρ) : Bool := router.routes.isEmpty

variable [RouteLike ρ]

/-- The first route that matches a path. -/
def matchRoute (router : Router ρ) (path : String) : Option RouteMatch :=
  router.routes.findSome? fun (name, route) =>
    (RouteLike.matchPath route path).map fun parameters => ⟨name, parameters⟩

/-- The parameters of a path by the first route that matches it. -/
def matchPath (router : Router ρ) (path : String) : Option Parameters :=
  (router.matchRoute path).map RouteMatch.parameters

/-- The URL of a named route. -/
def assemble (router : Router ρ) (name : String) (parameters : Parameters) :
    Except AssembleError String :=
  match router.route? name with
  | some route => RouteLike.assemble route parameters
  | none => .error (.unknownRoute name)

end Router

end UrlRouting
