import UrlRouting.Definition.Table
import UrlRouting.Json.Reader
import UrlRouting.Json.Skip

/-! # Reading route tables

Tables and definitions as JSON texts. Each is an object of named fields in any order, or the list
of its fields in the order of declaration.

* All fields but the name of a definition may be left out.
* In an object, fields of other names are skipped, and a field that is given twice has the wrong
  shape, as has an object without a name.
-/

namespace UrlRouting

open Json (Fault Reader)

/-! ### Definitions -/

/-- The fields of a definition that have been read. -/
structure DefinitionFields where
  name : Option String
  kind : Option String
  pattern : Option (Option String)
  parameters : Option Json.Object

namespace DefinitionFields

/-- No field has been read. -/
def unread : DefinitionFields := ⟨none, none, none, none⟩

/-- One more member of the object of a definition. -/
def read (bound depth : Nat) (fields : DefinitionFields) (key : String) : Reader DefinitionFields :=
  if key = "name" then
    Json.readInto fields.name Json.readString fun value => { fields with name := some value }
  else if key = "type" then
    Json.readInto fields.kind Json.readString fun value => { fields with kind := some value }
  else if key = "pattern" then
    Json.readInto fields.pattern Json.readString? fun value => { fields with pattern := some value }
  else if key = "parameters" then
    Json.readInto fields.parameters (Json.readObject bound depth) fun value =>
      { fields with parameters := some value }
  else Json.skipMember fields

/-- The definition of the fields that have been read. -/
def definition (fields : DefinitionFields) : Except Fault RouteDefinition :=
  match fields.name with
  | none => .error .wrongShape
  | some name =>
    .ok ⟨name, fields.kind.getD RouteDefinition.defaultKind, fields.pattern.getD none,
      fields.parameters.getD .empty⟩

end DefinitionFields

namespace RouteDefinition

/-- A definition after the opening brace of its object. -/
def readNamed (bound depth : Nat) : Reader RouteDefinition := fun text => do
  let (fields, rest) ←
    Json.readMembers bound (DefinitionFields.read bound depth) DefinitionFields.unread text
  return (← fields.definition, rest)

/-- A definition after the opening bracket of its list. -/
def readListed (bound depth : Nat) : Reader RouteDefinition := fun text => do
  match ← Json.nextItem true text with
  | none => throw .wrongShape
  | some start =>
    let (name, text) ← Json.readString start
    let (kind, text) ← Json.readField false Json.readString defaultKind text
    let (pattern, text) ← Json.readField false Json.readString? none text
    let (parameters, text) ← Json.readField false (Json.readObject bound depth) .empty text
    return (⟨name, kind, pattern, parameters⟩, text)

/-- A definition in which at most `depth` containers are nested, its own included. -/
def read (bound depth : Nat) : Reader RouteDefinition :=
  Json.readRecord depth (readNamed bound) (readListed bound)

/-- The definition of a JSON text. -/
def ofJson (text : String) : Except Fault RouteDefinition :=
  Json.readWhole (fun bound => read bound Json.nestingLimit) text

end RouteDefinition

/-! ### Tables -/

namespace RouteTable

/-- The definitions of a table. -/
def readRoutes (bound depth : Nat) : Reader (List RouteDefinition) :=
  Json.readList bound depth (RouteDefinition.read bound)

/-- One more member of the object of a table. -/
def readMember (bound depth : Nat) (routes : Option (List RouteDefinition)) (key : String) :
    Reader (Option (List RouteDefinition)) :=
  if key = "routes" then Json.readInto routes (readRoutes bound depth) some
  else Json.skipMember routes

/-- A table after the opening brace of its object. -/
def readNamed (bound depth : Nat) : Reader RouteTable := fun text => do
  let (routes, rest) ← Json.readMembers bound (readMember bound depth) none text
  return (⟨routes.getD []⟩, rest)

/-- A table after the opening bracket of its list. -/
def readListed (bound depth : Nat) : Reader RouteTable := fun text => do
  let (routes, rest) ← Json.readField true (readRoutes bound depth) [] text
  return (⟨routes⟩, rest)

/-- A table in which at most `depth` containers are nested, its own included. -/
def read (bound depth : Nat) : Reader RouteTable :=
  Json.readRecord depth (readNamed bound) (readListed bound)

/-- The table of a JSON text. -/
def ofJson (text : String) : Except Fault RouteTable :=
  Json.readWhole (fun bound => read bound Json.nestingLimit) text

end RouteTable

end UrlRouting
