import JsonStencil.Instant

/-!
# Runtime values

What an encoder is handed. Beside the JSON shapes a value can be undefined (a
field that is missing), an integer of any size, or an instant. Looking up a
key that is absent, or a key of something that is not an object, gives
undefined, so the presence of a field can be asked of any value.

The generic text of a value knows no schema: entries that hold undefined
vanish from objects, undefined anywhere else is `null`, an instant is the
string of its text and a large integer is a bare number.

Main definitions:

* `Value` — runtime values.
* `Value.get` / `Value.follow` — lookup by a key and by a list of keys.
* `Value.ofJson` — a JSON document as a value.
* `Value.text` — the generic text.
-/

namespace JsonStencil

/-- A value at run time. The names of an object's entries are distinct. -/
inductive Value where
  | undefined
  | null
  | bool (value : Bool)
  | number (value : Json.Number)
  | bigint (value : Int)
  | string (value : String)
  | instant (value : Instant)
  | array (items : List Value)
  | object (entries : List (String × Value))
deriving Repr

namespace Value

instance : Inhabited Value := ⟨.undefined⟩

/-! ## Lookup -/

/-- The entry under a key; undefined where there is none. -/
def get (v : Value) (key : String) : Value :=
  match v with
  | .object entries => (entries.lookup key).getD .undefined
  | _ => .undefined

/-- The value reached by following keys from the outermost on. -/
def follow (v : Value) (keys : List String) : Value := keys.foldl get v

/-- Whether the value is missing. -/
def isUndefined : Value → Bool
  | .undefined => true
  | _ => false

/-- Whether the value is null. -/
def isNull : Value → Bool
  | .null => true
  | _ => false

/-! ## Values of JSON documents -/

mutual

/-- A JSON value as a runtime value. -/
def ofJson : Json → Value
  | .null => .null
  | .bool b => .bool b
  | .number n => .number n
  | .string s => .string s
  | .array items => .array (ofItems items)
  | .object members => .object (ofMembers members)

/-- Item by item. -/
def ofItems : List Json → List Value
  | [] => []
  | item :: rest => ofJson item :: ofItems rest

/-- Member by member. -/
def ofMembers : List (String × Json) → List (String × Value)
  | [] => []
  | (key, value) :: rest => (key, ofJson value) :: ofMembers rest

end

/-! ## The generic text -/

mutual

/-- The text of a value with no knowledge of its schema. -/
def text : Value → String
  | .undefined => "null"
  | .null => "null"
  | .bool true => "true"
  | .bool false => "false"
  | .number n => n.text
  | .bigint n => integerText n
  | .string s => Json.escaped s
  | .instant t => Json.escaped t.text
  | .array items => bracketed (itemTexts items)
  | .object entries => braced (entryTexts entries)

/-- The text of every item. -/
def itemTexts : List Value → List String
  | [] => []
  | item :: rest => text item :: itemTexts rest

/-- The text of every entry that is not undefined, the key in front. -/
def entryTexts : List (String × Value) → List String
  | [] => []
  | (key, value) :: rest =>
    if value.isUndefined then entryTexts rest
    else (Json.escaped key ++ ":" ++ text value) :: entryTexts rest

end

end Value

end JsonStencil
