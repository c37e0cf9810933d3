import UrlRouting.Definition.Table
import UrlRouting.Json.Writer

/-! # Writing route tables

Tables and definitions as JSON texts without blanks, fields in the order of declaration. A pattern
that is not there and parameters that are empty are left out. -/

namespace UrlRouting

/-- The written members of a definition. -/
def RouteDefinition.members (definition : RouteDefinition) : List (List Char) :=
  [Json.writeMember "name" (Json.writeText definition.name.toList),
    Json.writeMember "type" (Json.writeText definition.kind.toList)] ++
  (match definition.pattern with
    | some pattern => [Json.writeMember "pattern" (Json.writeText pattern.toList)]
    | none => []) ++
  (if definition.parameters.members.isEmpty then []
    else [Json.writeMember "parameters" (Json.write (.object definition.parameters.members))])

/-- A definition. -/
def RouteDefinition.write (definition : RouteDefinition) : List Char :=
  Json.writeObject definition.members

/-- The JSON text of a definition. -/
def RouteDefinition.toJson (definition : RouteDefinition) : String :=
  String.ofList definition.write

/-- The JSON text of a table. -/
def RouteTable.toJson (table : RouteTable) : String :=
  String.ofList (Json.writeObject
    [Json.writeMember "routes" (Json.writeList (table.routes.map RouteDefinition.write))])

end UrlRouting
