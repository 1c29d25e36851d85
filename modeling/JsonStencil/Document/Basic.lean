import JsonStencil.Json.Compact
import JsonStencil.Json.Fault

/-!
# Schema documents

A schema document is a JSON value in which eleven keywords have a meaning.
Here it is in typed form: every keyword has been checked for its shape, and a
keyword with the value null counts as absent. What the keywords mean together
is not decided yet.

A document may also be written as an array that gives the values of all
eleven keywords in a fixed order.

Main definitions:

* `Document` — the typed form.
* `Document.Keyword` — the keywords in their order.
* `Document.Fault` — what keeps a JSON value from being a document.
-/

namespace JsonStencil

/-! ## The typed form -/

/-- The value of the keyword `type`: a name, or several to choose from. -/
inductive TypeNames where
  | one (name : String)
  | many (names : List String)
deriving DecidableEq, Repr

/-- The value of the keyword `items`: one document for all items, or one for
each of the first. -/
inductive ItemForms (α : Type) where
  | one (items : α)
  | tuple (items : List α)
deriving Repr

/-- The value of the keyword `additionalProperties`: a flag, or a document
for the values of undeclared keys. -/
inductive AdditionalForm (α : Type) where
  | flag (allowed : Bool)
  | schema (values : α)
deriving Repr

/-- A schema document in typed form. Every keyword may be absent. -/
structure Document where
  type : Option TypeNames := none
  properties : Option (List (String × Document)) := none
  required : Option (List String) := none
  additionalProperties : Option (AdditionalForm Document) := none
  patternProperties : Option (List (String × Document)) := none
  items : Option (ItemForms Document) := none
  prefixItems : Option (List Document) := none
  anyOf : Option (List Document) := none
  allOf : Option (List Document) := none
  default : Option Json := none
  format : Option String := none
deriving Inhabited

namespace Document

/-! ## Keywords -/

/-- The keywords that have a meaning. -/
inductive Keyword where
  | type
  | properties
  | required
  | additionalProperties
  | patternProperties
  | items
  | prefixItems
  | anyOf
  | allOf
  | default
  | format
deriving DecidableEq, Repr

namespace Keyword

/-- All keywords in the order in which an array gives their values. -/
def all : List Keyword :=
  [.type, .properties, .required, .additionalProperties, .patternProperties, .items,
    .prefixItems, .anyOf, .allOf, .default, .format]

/-- The spelling of a keyword. -/
def name : Keyword → String
  | .type => "type"
  | .properties => "properties"
  | .required => "required"
  | .additionalProperties => "additionalProperties"
  | .patternProperties => "patternProperties"
  | .items => "items"
  | .prefixItems => "prefixItems"
  | .anyOf => "anyOf"
  | .allOf => "allOf"
  | .default => "default"
  | .format => "format"

/-- The keyword of a spelling. -/
def ofName? (name : String) : Option Keyword := all.find? fun keyword => keyword.name == name

end Keyword

/-! ## Faults -/

/-- What was found where another shape was expected. -/
inductive Found where
  | null
  | bool (value : Bool)
  | number (value : Json.Number)
  | string (value : String)
  | sequence
  | map
deriving DecidableEq, Repr

/-- The wording of what was found. -/
def Found.text : Found → String
  | .null => "null"
  | .bool true => "boolean `true`"
  | .bool false => "boolean `false`"
  | .number (.integer value) => "integer `" ++ integerText value ++ "`"
  | .number (.float value) => "floating point `" ++ value.text ++ "`"
  | .string value => "string " ++ Text.shown value
  | .sequence => "sequence"
  | .map => "map"

/-- The shapes that a keyword may ask for. -/
inductive Shape where
  | document
  | string
  | sequence
  | map
deriving DecidableEq, Repr

/-- The wording of a shape. -/
def Shape.text : Shape → String
  | .document => "struct RawSchema"
  | .string => "a string"
  | .sequence => "a sequence"
  | .map => "a map"

/-- What keeps a JSON value from being a document. -/
inductive Cause where
  /-- The text is no JSON. -/
  | text (cause : Json.Cause)
  /-- A value has another shape than its keyword asks for. -/
  | wrongShape (found : Found) (expected : Shape)
  /-- An array gives too few values of keywords. -/
  | tooShort (length : Nat)
  /-- An array gives too many values of keywords. -/
  | tooLong (length : Nat)
  /-- A keyword stands twice in one object. -/
  | repeated (keyword : Keyword)
  /-- A value has none of the shapes that its keyword allows. -/
  | noForm (keyword : Keyword)
deriving DecidableEq, Repr

/-- The name of the choice of shapes that a keyword allows. -/
def formsName : Keyword → String
  | .type => "TypeField"
  | .additionalProperties => "AdditionalProperties"
  | .items => "Items"
  | keyword => keyword.name

/-- The wording of a cause. -/
def Cause.message : Cause → String
  | .text cause => cause.message
  | .wrongShape found expected =>
    "invalid type: " ++ found.text ++ ", expected " ++ expected.text
  | .tooShort length =>
    s!"invalid length {length}, expected struct RawSchema with 11 elements"
  | .tooLong length => s!"invalid length {length}, expected fewer elements in array"
  | .repeated keyword => "duplicate field `" ++ keyword.name ++ "`"
  | .noForm keyword =>
    "data did not match any variant of untagged enum " ++ formsName keyword

/-- What is wrong, where in the text it was found, if there is a text, and
inside which value. -/
structure Fault where
  cause : Cause
  place : Option Json.Place := none
  path : List Json.Segment := []
deriving DecidableEq, Repr

namespace Fault

/-- The wording of a fault, its path left aside. -/
def message (f : Fault) : String :=
  match f.place with
  | some place => f.cause.message ++ " at " ++ place.text
  | none => f.cause.message

/-- The fault seen from one level further out. -/
def under (segment : Json.Segment) (f : Fault) : Fault := { f with path := segment :: f.path }

/-- A fault of the text as a fault of the document. -/
def ofText (f : Json.Fault) : Fault := ⟨.text f.cause, some f.place, f.path⟩

end Fault

end Document

end JsonStencil
