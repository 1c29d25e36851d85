import JsonStencil.Json.Basic

/-!
# Schemas

A schema says which values are to be encoded. Every node carries two marks
that do not depend on its kind: a default, written in place of a missing
value where the encoder allows it, and whether the property that the node
describes may be absent. The properties of an object are kept in the order
of their declaration, which is the order of the output.

Main definitions:

* `Schema` — schema trees.
* `Schema.isObjectTyped` — objects and the intersections that merge into
  one.
* `Schema.kindName` — the name of a node's kind.
* `Schema.same` — equality up to the order of properties.
-/

namespace JsonStencil

/-- The kinds without members. A date stands for an instant; `other` is a
type the encoder does not know, by its name. -/
inductive Scalar where
  | string (format : Option String)
  | number
  | boolean
  | bigint
  | null
  | undefined
  | date
  | other (name : String)
deriving DecidableEq, Repr

/-- What any node may carry, whatever its kind. -/
structure Marks where
  /-- Written in place of a missing value. -/
  default : Option Json := none
  /-- The property described may be absent. -/
  optional : Bool := false
deriving Repr, Inhabited

/-- A schema tree. An object lists its properties, the keys it requires and
whether its values may carry further keys. -/
inductive Schema where
  | scalar (kind : Scalar) (marks : Marks)
  | object (properties : List (String × Schema)) (required : List String)
      (additional : Bool) (marks : Marks)
  | array (items : Schema) (marks : Marks)
  | union (members : List Schema) (marks : Marks)
  | intersection (members : List Schema) (marks : Marks)
deriving Repr

/-- Marks agree when the defaults are equal JSON values and the optional
markers are the same. -/
def Marks.same (a b : Marks) : Bool :=
  a.optional == b.optional &&
    match a.default, b.default with
    | none, none => true
    | some x, some y => x.same y
    | _, _ => false

namespace Schema

instance : Inhabited Schema := ⟨.scalar .null {}⟩

/-! ## Marks -/

/-- The marks of a node. -/
def marks : Schema → Marks
  | .scalar _ marks => marks
  | .object _ _ _ marks => marks
  | .array _ marks => marks
  | .union _ marks => marks
  | .intersection _ marks => marks

/-- The same node under other marks. -/
def withMarks (marks : Marks) : Schema → Schema
  | .scalar kind _ => .scalar kind marks
  | .object properties required additional _ => .object properties required additional marks
  | .array items _ => .array items marks
  | .union members _ => .union members marks
  | .intersection members _ => .intersection members marks

/-- The default of a node. -/
def default (s : Schema) : Option Json := s.marks.default

/-- Whether the property described may be absent. -/
def optional (s : Schema) : Bool := s.marks.optional

@[simp] theorem marks_withMarks (m : Marks) (s : Schema) : (s.withMarks m).marks = m := by
  cases s <;> rfl

/-! ## Kinds -/

/-- The name of a node's kind. -/
def kindName : Schema → String
  | .scalar (.string _) _ => "string"
  | .scalar .number _ => "number"
  | .scalar .boolean _ => "boolean"
  | .scalar .bigint _ => "bigint"
  | .scalar .null _ => "null"
  | .scalar .undefined _ => "undefined"
  | .scalar .date _ => "Date"
  | .scalar (.other name) _ => name
  | .object _ _ _ _ => "object"
  | .array _ _ => "array"
  | .union _ _ => "union"
  | .intersection _ _ => "intersection"

/-- Whether the node admits null alone. -/
def isNull : Schema → Bool
  | .scalar .null _ => true
  | _ => false

/-- Whether the node admits undefined alone. -/
def isUndefined : Schema → Bool
  | .scalar .undefined _ => true
  | _ => false

/-- Whether the node is the bare date. -/
def isDate : Schema → Bool
  | .scalar .date _ => true
  | _ => false

mutual

/-- An object, or an intersection that merges into one. -/
def isObjectTyped : Schema → Bool
  | .object _ _ _ _ => true
  | .intersection members _ => anyObjectTyped members
  | _ => false

/-- Whether some member is object-typed. -/
def anyObjectTyped : List Schema → Bool
  | [] => false
  | member :: rest => isObjectTyped member || anyObjectTyped rest

end

/-- An intersection is merged as soon as one member is an object in the end. -/
theorem anyObjectTyped_eq_any (members : List Schema) :
    anyObjectTyped members = members.any isObjectTyped := by
  induction members with
  | nil => simp [anyObjectTyped]
  | cons member rest ih => simp [anyObjectTyped, ih]

/-! ## Equality -/

mutual

/-- Equality up to the order of properties; defaults are compared as JSON
values. -/
def same : Schema → Schema → Bool
  | .scalar kind marks, .scalar kind' marks' => kind == kind' && marks.same marks'
  | .object properties required additional marks,
      .object properties' required' additional' marks' =>
    properties.length == properties'.length && sameProperties properties properties' &&
      required == required' && additional == additional' && marks.same marks'
  | .array items marks, .array items' marks' => same items items' && marks.same marks'
  | .union members marks, .union members' marks' =>
    sameMembers members members' && marks.same marks'
  | .intersection members marks, .intersection members' marks' =>
    sameMembers members members' && marks.same marks'
  | _, _ => false

/-- Member by member. -/
def sameMembers : List Schema → List Schema → Bool
  | [], [] => true
  | a :: as, b :: bs => same a b && sameMembers as bs
  | _, _ => false

/-- Every property is found under its key on the other side. -/
def sameProperties : List (String × Schema) → List (String × Schema) → Bool
  | [], _ => true
  | (key, a) :: rest, bs =>
    (match bs.lookup key with
      | some b => same a b
      | none => false) && sameProperties rest bs

end

end Schema

end JsonStencil
