import JsonStencil.Binary64.Decimal
import JsonStencil.Fields

/-!
# JSON values

A JSON value as a document holds it. Objects keep the order of their
members. A number is an integer or a finite binary64 number, and the two
never stand for each other: `1` and `1.0` are different numbers.

Main definitions:

* `Json` / `Json.Number` — values and numbers.
* `Json.same` — equality up to the order of object members.
* `Json.distinct` — repeated object keys settled, at every depth.
-/

namespace JsonStencil

/-- A JSON number. The integers are those from `-2 ^ 63` up to `2 ^ 64 - 1`;
every other number is read as a binary64 number. -/
inductive Json.Number where
  | integer (value : Int)
  | float (value : Binary64)
deriving DecidableEq, Repr

/-- A JSON value. -/
inductive Json where
  | null
  | bool (value : Bool)
  | number (value : Json.Number)
  | string (value : String)
  | array (items : List Json)
  | object (members : List (String × Json))
deriving Repr

namespace Json

instance : Inhabited Json := ⟨.null⟩

/-! ## Equality -/

/-- Numbers are equal when both are integers or both are not, and their
values agree; the two zeros among the binary64 numbers agree. -/
def Number.same : Number → Number → Bool
  | .integer a, .integer b => a == b
  | .float a, .float b => a.same b
  | _, _ => false

mutual

/-- Equality up to the order of object members. -/
def same : Json → Json → Bool
  | .null, .null => true
  | .bool a, .bool b => a == b
  | .number a, .number b => a.same b
  | .string a, .string b => a == b
  | .array as, .array bs => sameItems as bs
  | .object as, .object bs => as.length == bs.length && sameMembers as bs
  | _, _ => false

/-- Item by item. -/
def sameItems : List Json → List Json → Bool
  | [], [] => true
  | a :: as, b :: bs => same a b && sameItems as bs
  | _, _ => false

/-- Every member is found under its key on the other side. -/
def sameMembers : List (String × Json) → List (String × Json) → Bool
  | [], _ => true
  | (key, a) :: rest, bs =>
    (match bs.lookup key with
      | some b => same a b
      | none => false) && sameMembers rest bs

end

/-! ## Repeated keys -/

mutual

/-- Settles repeated keys at every depth: a key keeps its first place and
its last value. -/
def distinct : Json → Json
  | .array items => .array (distinctItems items)
  | .object members => .object (distinctMembers members [])
  | other => other

/-- Settles every item. -/
def distinctItems : List Json → List Json
  | [] => []
  | item :: rest => distinct item :: distinctItems rest

/-- Puts the settled members one after the other. -/
def distinctMembers : List (String × Json) → List (String × Json) → List (String × Json)
  | [], settled => settled
  | (key, value) :: rest, settled =>
    distinctMembers rest (Fields.put key (distinct value) settled)

end

end Json

end JsonStencil
