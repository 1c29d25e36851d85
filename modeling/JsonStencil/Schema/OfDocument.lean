import JsonStencil.Document.Reader
import JsonStencil.Schema.Build

/-!
# The schema of a document

The keywords of a document are weighed against each other: `anyOf` comes
before `allOf`, and either before `type`. A list of type names stands for a
union that takes the node once under every name. Without any of the three a
document with properties is that of an object, and any other one admits
everything. A property is optional when its object does not require its key.

Two documents have no schema although they are well formed: an empty choice
of members, and an array that says nothing of its items. Members, items and
properties of keywords that another keyword overrules are not looked at.

Main definitions:

* `LoadError` — what keeps a document from having a schema.
* `Schema.ofDocument` — the schema of a document.
* `Schema.ofDocumentJson`, `ofDocumentBytes`, `ofDocumentText` — from a JSON
  value, from bytes and from text.
-/

namespace JsonStencil

/-! ## Errors -/

/-- The keywords that compose a schema of members. -/
inductive Composition where
  | anyOf
  | allOf
deriving DecidableEq, Repr

/-- The spelling of the keyword. -/
def Composition.name : Composition → String
  | .anyOf => "anyOf"
  | .allOf => "allOf"

/-- What keeps a document from having a schema. A path lists the keywords,
keys and positions that lead from the document to the node. -/
inductive LoadError where
  /-- The value is no document. -/
  | malformed (fault : Document.Fault)
  /-- An array says nothing of its items. -/
  | missingItems (path : List String)
  /-- A composition has no members. -/
  | emptyComposition (keyword : Composition) (path : List String)
deriving DecidableEq, Repr

/-- The wording of a path inside a document. -/
def documentPath (path : List String) : String := "#" ++ String.join (path.map ("/" ++ ·))

/-- The wording of an error. -/
def LoadError.message : LoadError → String
  | .malformed fault => "at JSON path " ++ Json.pathText fault.path ++ " → " ++ fault.message
  | .missingItems path => "array schema at " ++ documentPath path ++ " has no `items`"
  | .emptyComposition keyword path =>
    "`" ++ keyword.name ++ "` at " ++ documentPath path ++ " must not be empty"

namespace Schema

/-! ## Nodes -/

/-- The kind that a type name stands for, objects and arrays apart. A name
that is not known stands for itself. -/
def scalarOf (name : String) (format : Option String) : Scalar :=
  if name = "string" then .string format
  else if name = "number" ∨ name = "integer" then .number
  else if name = "boolean" then .boolean
  else if name = "bigint" then .bigint
  else if name = "null" then .null
  else if name = "undefined" then .undefined
  else if name = "Date" then .date
  else .other name

/-- Whether the values of an object may carry undeclared keys: when a flag or
a document says so, or when keys are declared by patterns. -/
def admitsAdditional (additional : Option (AdditionalForm Document))
    (patterns : Option (List (String × Document))) : Bool :=
  let declared := match additional with
    | some (.flag allowed) => allowed
    | some (.schema _) => true
    | none => false
  declared || patterns.any fun patterns => !patterns.isEmpty

mutual

/-- The schema of a document that is found under a path. -/
def ofDocumentAt (path : List String) : Document → Except LoadError Schema
  | { type, properties, required, additionalProperties, patternProperties, items,
      prefixItems, anyOf, allOf, default, format } =>
    let named (name : String) (marks : Marks) : Except LoadError Schema :=
      if name = "object" then do
        let required := required.getD []
        let properties ← match properties with
          | some properties => propertiesAt required path properties
          | none => .ok []
        let additional := admitsAdditional additionalProperties patternProperties
        .ok (.object properties required additional marks)
      else if name = "array" then
        match items, prefixItems with
        | some (.one items), none => do
          .ok (.array (← ofDocumentAt (path ++ ["items"]) items) marks)
        | none, none => .error (.missingItems path)
        | _, _ => .ok (.scalar (.other "tuple") marks)
      else .ok (.scalar (scalarOf name format) marks)
    let marks : Marks := { default }
    match anyOf, allOf, type with
    | some members, _, _ => do .ok (.union (← compositionAt .anyOf path members) marks)
    | none, some members, _ => do
      .ok (.intersection (← compositionAt .allOf path members) marks)
    | none, none, some (.one name) => named name marks
    | none, none, some (.many names) => do
      .ok (.union (← names.mapM fun name => named name {}) marks)
    | none, none, none =>
      if properties.isSome || patternProperties.isSome then named "object" marks
      else .ok (.scalar (.other "any") marks)

/-- The members of a composition, of which there must be one. -/
def compositionAt (keyword : Composition) (path : List String) :
    List Document → Except LoadError (List Schema)
  | [] => .error (.emptyComposition keyword path)
  | first :: rest => do
    let member ← ofDocumentAt (path ++ [keyword.name, "0"]) first
    .ok (member :: (← membersAt (path ++ [keyword.name]) 1 rest))

/-- The schemas of members under their positions. -/
def membersAt (path : List String) (position : Nat) :
    List Document → Except LoadError (List Schema)
  | [] => .ok []
  | first :: rest => do
    let member ← ofDocumentAt (path ++ [toString position]) first
    .ok (member :: (← membersAt path (position + 1) rest))

/-- The schemas of properties under their keys, marked as optional unless
their key is required. -/
def propertiesAt (required path : List String) :
    List (String × Document) → Except LoadError (List (String × Schema))
  | [] => .ok []
  | (key, property) :: rest => do
    let schema ← ofDocumentAt (path ++ ["properties", key]) property
    let marked := schema.withMarks { schema.marks with optional := !required.contains key }
    .ok ((key, marked) :: (← propertiesAt required path rest))

end

/-- The schema of a document. -/
def ofDocument (d : Document) : Except LoadError Schema := ofDocumentAt [] d

/-! ## Entry points -/

/-- The schema of a document given as a JSON value. -/
def ofDocumentJson (value : Json) : Except LoadError Schema := do
  ofDocument (← (Document.ofJson value).mapError .malformed)

/-- The schema of a document given as the bytes of a text. -/
def ofDocumentBytes (bytes : List UInt8) : Except LoadError Schema := do
  ofDocument (← (Document.ofBytes bytes).mapError .malformed)

/-- The schema of a document given as text. -/
def ofDocumentText (text : String) : Except LoadError Schema := do
  ofDocument (← (Document.ofText text).mapError .malformed)

end Schema

end JsonStencil
