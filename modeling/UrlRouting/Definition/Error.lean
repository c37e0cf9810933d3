import UrlRouting.Pattern.Error

/-! # Faults of route definitions -/

namespace UrlRouting

/-- Why a definition makes no route, or a route cannot be registered. -/
inductive DefinitionError where
  /-- The definition of a route lacks a key that its kind needs. -/
  | missingKey (route key : String)
  /-- The definition of a route asks for a kind that does not exist. -/
  | unknownKind (route kind : String)
  /-- A default value is neither a string nor a number nor a truth value. -/
  | invalidParameter (route name : String)
  /-- The pattern of a route has a fault. -/
  | invalidPattern (route : String) (fault : PatternError)
  /-- A route of this name is registered. -/
  | nameTaken (name : String)
deriving DecidableEq, Repr

/-- The message of a fault; there is none if the fault is a pattern's that has none. -/
def DefinitionError.message? : DefinitionError → Option String
  | .missingKey route key =>
    some s!"route \"{route}\" definition must contain a \"{key}\" key, but it is not there"
  | .unknownKind route kind =>
    some s!"route \"{route}\" requests an unknown type of a route: \"{kind}\""
  | .invalidParameter route name =>
    some s!"route \"{route}\" parameter \"{name}\" must be a string, number or boolean"
  | .invalidPattern route fault =>
    fault.message?.map fun message => s!"route \"{route}\" has an invalid pattern: {message}"
  | .nameTaken name => some s!"route named \"{name}\" is already registered"

end UrlRouting
