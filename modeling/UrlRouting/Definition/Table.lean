import UrlRouting.Definition.Basic
import UrlRouting.Router

/-! # Route tables

A list of route definitions in matching order. A table is built into a router by making the route
of each definition and registering it, one after the other; the first fault ends that. -/

namespace UrlRouting

/-- The definitions of a route table, in matching order. -/
structure RouteTable where
  routes : List RouteDefinition

namespace RouteTable

/-- Equality of tables. -/
def same (a b : RouteTable) : Bool := a.routes == b.routes

instance : BEq RouteTable := ⟨same⟩

/-- The router with the route of one more definition. -/
def register (router : Router Route) (definition : RouteDefinition) :
    Except DefinitionError (Router Route) := do
  let (result, after) := router.add definition.name (← definition.route)
  result
  return after

/-- The router of a list of definitions. -/
def routerOf (definitions : List RouteDefinition) : Except DefinitionError (Router Route) :=
  definitions.foldlM register Router.empty

/-- The router of a table. -/
def build (table : RouteTable) : Except DefinitionError (Router Route) := routerOf table.routes

end RouteTable

end UrlRouting
