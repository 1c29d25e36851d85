import JsonStencil.Schema.Build
import JsonStencil.Json.Compact

/-!
# The document of a schema

Every schema has a canonical document, a JSON value in the usual schema
language. It lists the keywords of a node in a fixed order and ends with the
default, and it says which properties are optional by leaving their keys out
of the object's list of required ones. What the list of a schema itself says
does not show.

Main definitions:

* `Schema.document` — the canonical document.
* `Schema.documentText` — its compact text.
-/

namespace JsonStencil.Schema

/-- The members that name a type. -/
def typeMember (name : String) : String × Json := ("type", .string name)

/-- The keywords of a node without members. -/
def scalarMembers : Scalar → List (String × Json)
  | .string none => [typeMember "string"]
  | .string (some format) => [typeMember "string", ("format", .string format)]
  | .number => [typeMember "number"]
  | .boolean => [typeMember "boolean"]
  | .bigint => [typeMember "bigint"]
  | .null => [typeMember "null"]
  | .undefined => [typeMember "undefined"]
  | .date => [typeMember "Date"]
  | .other name => [typeMember name]

/-- The keyword of a default, if there is one. -/
def defaultMember (marks : Marks) : List (String × Json) :=
  match marks.default with
  | some default => [("default", default)]
  | none => []

mutual

/-- The canonical document of a schema. -/
def document : Schema → Json
  | .scalar kind marks => .object (scalarMembers kind ++ defaultMember marks)
  | .object properties _ additional marks =>
    .object ([typeMember "object", ("properties", .object (propertyDocuments properties)),
        ("required", .array ((requiredKeys properties).map .string))] ++
      (if additional then [("additionalProperties", .bool true)] else []) ++
      defaultMember marks)
  | .array items marks =>
    .object ([typeMember "array", ("items", document items)] ++ defaultMember marks)
  | .union members marks =>
    .object (("anyOf", .array (memberDocuments members)) :: defaultMember marks)
  | .intersection members marks =>
    .object (("allOf", .array (memberDocuments members)) :: defaultMember marks)

/-- The document of every member. -/
def memberDocuments : List Schema → List Json
  | [] => []
  | member :: rest => document member :: memberDocuments rest

/-- The document of every property under its key. -/
def propertyDocuments : List (String × Schema) → List (String × Json)
  | [] => []
  | (key, property) :: rest => (key, document property) :: propertyDocuments rest

end

/-- The compact text of the canonical document. -/
def documentText (s : Schema) : String := s.document.text

end JsonStencil.Schema
