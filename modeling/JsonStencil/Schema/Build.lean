import JsonStencil.Schema.Basic

/-!
# Building schemas

Constructors and modifiers for schemas written in code. An object built here
requires exactly its properties without the optional marker. Widening a
schema by null or undefined adds a member to a union and wraps anything else
into one; the optional marker then moves to the wrapper, because it speaks of
the property and not of the member.

Main definitions:

* `Schema.ofScalar`, `ofProperties`, `arrayOf`, `unionOf`, `allOf` — nodes
  without marks.
* `Schema.nullable` / `Schema.undefinable` — widening.
* `Schema.asOptional`, `withDefault`, `withFormat`,
  `withAdditionalProperties` — modifiers.
* `Schema.integerString` / `Schema.dateLike` — the two unions with an
  encoding of their own.
-/

namespace JsonStencil.Schema

/-! ## Nodes -/

/-- A node without members. -/
def ofScalar (kind : Scalar) : Schema := .scalar kind {}

/-- A string schema without a format. -/
def string : Schema := ofScalar (.string none)

/-- A number schema. -/
def number : Schema := ofScalar .number

/-- The keys of the properties that carry no optional marker. -/
def requiredKeys (properties : List (String × Schema)) : List String :=
  (properties.filter fun property => !property.2.optional).map Prod.fst

/-- An object; of a repeated key the first place and the last schema count,
and the keys without an optional marker are required. -/
def ofProperties (pairs : List (String × Schema)) : Schema :=
  let properties := Fields.ofPairs pairs
  .object properties (requiredKeys properties) false {}

/-- An array of items. -/
def arrayOf (items : Schema) : Schema := .array items {}

/-- Any of the members. -/
def unionOf (members : List Schema) : Schema := .union members {}

/-- All of the members. -/
def allOf (members : List Schema) : Schema := .intersection members {}

/-! ## Modifiers -/

/-- The property described may be absent. -/
def asOptional (s : Schema) : Schema := s.withMarks { s.marks with optional := true }

/-- A value written in place of a missing one. -/
def withDefault (default : Json) (s : Schema) : Schema :=
  s.withMarks { s.marks with default := some default }

/-- A format, on strings only. -/
def withFormat (format : String) : Schema → Schema
  | .scalar (.string _) marks => .scalar (.string (some format)) marks
  | other => other

/-- Lets values carry undeclared keys, on objects only. -/
def withAdditionalProperties : Schema → Schema
  | .object properties required _ marks => .object properties required true marks
  | other => other

/-- Adds a member: a union gains it in place, anything else is wrapped and
the optional marker moves to the wrapper. -/
def widen (s member : Schema) : Schema :=
  match s with
  | .union members marks => .union (members ++ [member]) marks
  | s => .union [s.withMarks { s.marks with optional := false }, member]
      { optional := s.optional }

/-- The schema or null. -/
def nullable (s : Schema) : Schema := s.widen (ofScalar .null)

/-- The schema or undefined. -/
def undefinable (s : Schema) : Schema := s.widen (ofScalar .undefined)

/-! ## Unions with an encoding of their own -/

/-- A string of decimal digits, or a number: integers beyond the range in
which numbers are safe. -/
def integerString : Schema := unionOf [string.withFormat "integer", number]

/-- An instant, or a value that is formatted already. -/
def dateLike : Schema :=
  unionOf [ofScalar .date, string.withFormat "date-time", number]

end JsonStencil.Schema
