import JsonStencil.Document.Basic

/-!
# The typed form of a JSON value

A JSON value is checked keyword by keyword, in the order of its members. Keys
without a meaning are passed over, whatever stands under them. A keyword that
allows several shapes tries them in turn, and what is wrong inside the last
one is not reported: the fault is that none of them fits.

Main definitions:

* `Document.ofJson` — the document of a JSON value.
-/

namespace JsonStencil.Document

/-- What a value is found to be. -/
def Found.ofJson : Json → Found
  | .null => .null
  | .bool value => .bool value
  | .number value => .number value
  | .string value => .string value
  | .array _ => .sequence
  | .object _ => .map

/-- A fault that names the expected shape. -/
def wrongShape {α : Type} (found : Json) (expected : Shape) : Except Fault α :=
  .error ⟨.wrongShape (Found.ofJson found) expected, none, []⟩

/-- A check one level further out: a fault in it lies under a segment. -/
def inside {α : Type} (segment : Json.Segment) (check : Except Fault α) : Except Fault α :=
  check.mapError (Fault.under segment)

/-- Strings only. -/
def stringOf : Json → Except Fault String
  | .string value => .ok value
  | other => wrongShape other .string

/-- An array of strings only. -/
def stringsFrom : (position : Nat) → List Json → Except Fault (List String)
  | _, [] => .ok []
  | position, item :: rest => do
    let first ← inside (.index position) (stringOf item)
    let others ← stringsFrom (position + 1) rest
    .ok (first :: others)

/-- A name or an array of names. -/
def typeNames? : Json → Option TypeNames
  | .string name => some (.one name)
  | .array names =>
    match stringsFrom 0 names with
    | .ok names => some (.many names)
    | .error _ => none
  | _ => none

/-- The first of the shapes that fits. -/
def orElse {α : Type} (keyword : Keyword) (forms : List (Option α)) : Except Fault α :=
  match forms.findSome? id with
  | some form => .ok form
  | none => .error ⟨.noForm keyword, none, []⟩

mutual

/-- The document of a JSON value: an object of keywords, or an array of the
values of all keywords. -/
def ofJson : Json → Except Fault Document
  | .object members => ofMembers [] {} members
  | .array values => ofValues values.length Keyword.all {} 0 values
  | other => wrongShape other .document

/-- Takes in the members of an object one after the other; `seen` holds the
keywords met so far. -/
def ofMembers (seen : List Keyword) (d : Document) :
    List (String × Json) → Except Fault Document
  | [] => .ok d
  | (key, value) :: rest =>
    match Keyword.ofName? key with
    | none => ofMembers seen d rest
    | some keyword =>
      if keyword ∈ seen then .error ⟨.repeated keyword, none, []⟩
      else do
        let d ← inside (.key key) (withKeyword d keyword value)
        ofMembers (keyword :: seen) d rest

/-- Takes in the values of the keywords one after the other. -/
def ofValues (length : Nat) (keywords : List Keyword) (d : Document) (position : Nat) :
    List Json → Except Fault Document
  | [] => if keywords.isEmpty then .ok d else .error ⟨.tooShort length, none, []⟩
  | value :: rest =>
    match keywords with
    | [] => .error ⟨.tooLong length, none, []⟩
    | keyword :: others => do
      let d ← inside (.index position) (withKeyword d keyword value)
      ofValues length others d (position + 1) rest

/-- The document with the value of one more keyword; null leaves it
absent. -/
def withKeyword (d : Document) (keyword : Keyword) : Json → Except Fault Document
  | .null => .ok d
  | value =>
    match keyword with
    | .type => do .ok { d with type := some (← orElse keyword [typeNames? value]) }
    | .properties =>
      match value with
      | .object members => do
        .ok { d with properties := some (Fields.ofPairs (← pairsOf members)) }
      | other => wrongShape other .map
    | .required =>
      match value with
      | .array names => do .ok { d with required := some (← stringsFrom 0 names) }
      | other => wrongShape other .sequence
    | .additionalProperties => do
      let values := match value with
        | .bool allowed => some (.flag allowed)
        | .object members => (ofMembers [] {} members).toOption.map .schema
        | .array values => (ofValues values.length Keyword.all {} 0 values).toOption.map .schema
        | _ => none
      .ok { d with additionalProperties := some (← orElse keyword [values]) }
    | .patternProperties =>
      match value with
      | .object members => do
        .ok { d with patternProperties := some (Fields.ofPairs (← pairsOf members)) }
      | other => wrongShape other .map
    | .items => do
      let forms := match value with
        | .object members => [(ofMembers [] {} members).toOption.map .one]
        | .array values =>
          [(documentsFrom 0 values).toOption.map .tuple,
            (ofValues values.length Keyword.all {} 0 values).toOption.map .one]
        | _ => []
      .ok { d with items := some (← orElse keyword forms) }
    | .prefixItems =>
      match value with
      | .array items => do .ok { d with prefixItems := some (← documentsFrom 0 items) }
      | other => wrongShape other .sequence
    | .anyOf =>
      match value with
      | .array members => do .ok { d with anyOf := some (← documentsFrom 0 members) }
      | other => wrongShape other .sequence
    | .allOf =>
      match value with
      | .array members => do .ok { d with allOf := some (← documentsFrom 0 members) }
      | other => wrongShape other .sequence
    | .default => .ok { d with default := some value.distinct }
    | .format => do .ok { d with format := some (← stringOf value) }

/-- The documents of an array, item by item. -/
def documentsFrom (position : Nat) : List Json → Except Fault (List Document)
  | [] => .ok []
  | item :: rest => do
    let first ← inside (.index position) (ofJson item)
    let others ← documentsFrom (position + 1) rest
    .ok (first :: others)

/-- The documents of an object's members in order. -/
def pairsOf : List (String × Json) → Except Fault (List (String × Document))
  | [] => .ok []
  | (key, value) :: rest => do
    let first ← inside (.key key) (ofJson value)
    let others ← pairsOf rest
    .ok ((key, first) :: others)

end

end JsonStencil.Document
