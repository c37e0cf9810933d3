/-! # Faults of an assembly -/

namespace UrlRouting

/-- Why no URL can be assembled. -/
inductive AssembleError where
  /-- A placeholder outside every group has no value. -/
  | missingParameter (name : String)
  /-- No route has this name. -/
  | unknownRoute (name : String)
deriving DecidableEq, Repr

/-- The message of a fault. -/
def AssembleError.message : AssembleError → String
  | .missingParameter name => s!"missing parameter \"{name}\""
  | .unknownRoute name => s!"route named \"{name}\" is unknown"

end UrlRouting
