import UrlRouting.Definition.Error
import UrlRouting.Json.Number
import UrlRouting.Route.Basic

/-! # Route definitions

What a route table says about one route, and the route it makes.

* The parameters of a definition are default values. A string, a number or a truth value stands for
  its text, `null` for no default; arrays and objects are refused.
* `RouteDefinition.route` tests, in this order: the kind is known, a pattern is there, the
  parameters stand for texts, and the pattern has no fault.
-/

namespace UrlRouting

/-- The kinds of routes. -/
inductive RouteKind where
  | pattern
deriving DecidableEq, Repr

namespace RouteKind

/-- The name of a kind in definitions. -/
def tag : RouteKind → String
  | pattern => "pattern"

/-- All kinds. -/
def all : List RouteKind := [pattern]

/-- The kind with this name. -/
def ofTag? (tag : String) : Option RouteKind := all.find? fun kind => kind.tag = tag

end RouteKind

/-- A route as a table gives it. -/
structure RouteDefinition where
  name : String
  kind : String
  pattern : Option String
  parameters : Json.Object

namespace RouteDefinition

/-- The name of the kind that a definition has if it gives none. -/
def defaultKind : String := RouteKind.pattern.tag

/-- A pattern route without default values. -/
def ofPattern (name pattern : String) : RouteDefinition := ⟨name, defaultKind, some pattern, .empty⟩

/-- The definition with one parameter set. -/
def withParameter (definition : RouteDefinition) (name : String) (value : Json) :
    RouteDefinition :=
  { definition with parameters := definition.parameters.insert name value }

/-- Equality of definitions. -/
def same (a b : RouteDefinition) : Bool :=
  a.name = b.name && a.kind = b.kind && a.pattern = b.pattern &&
    Json.sameMembers a.parameters.members b.parameters.members

instance : BEq RouteDefinition := ⟨same⟩

/-! ### Default values -/

/-- What a parameter value stands for. -/
inductive Default where
  /-- No default. -/
  | absent
  /-- A text. -/
  | text (value : String)
  /-- Nothing; the value is refused. -/
  | invalid
deriving DecidableEq, Repr

/-- What a JSON value stands for as a default. -/
def defaultOf : Json → Default
  | .null => .absent
  | .string value => .text value
  | .boolean value => .text (if value then "true" else "false")
  | .number value => .text value.write
  | .array _ => .invalid
  | .object _ => .invalid

/-- The default values of members laid over `defaults`; the name of the first refused value. -/
def collectDefaults (defaults : Parameters) : Json.Members → Except String Parameters
  | [] => .ok defaults
  | (name, value) :: rest =>
    match defaultOf value with
    | .absent => collectDefaults defaults rest
    | .text value => collectDefaults (defaults.set name value) rest
    | .invalid => .error name

/-- The default values of a definition. -/
def defaults (definition : RouteDefinition) : Except DefinitionError Parameters :=
  (collectDefaults Parameters.empty definition.parameters.members).mapError
    (.invalidParameter definition.name)

/-! ### Routes -/

/-- The pattern route of a definition. -/
def patternRoute (definition : RouteDefinition) : Except DefinitionError Route := do
  match definition.pattern with
  | none => .error (.missingKey definition.name "pattern")
  | some pattern =>
    let defaults ← definition.defaults
    (Route.compile pattern defaults).mapError (.invalidPattern definition.name)

/-- The route of a definition. -/
def route (definition : RouteDefinition) : Except DefinitionError Route :=
  match RouteKind.ofTag? definition.kind with
  | none => .error (.unknownKind definition.name definition.kind)
  | some .pattern => definition.patternRoute

end RouteDefinition

end UrlRouting
