import JsonStencil.Json.Basic
import JsonStencil.Json.Literal

/-!
# Compact JSON text

The text of a JSON value without any blank: members and items are separated
by a comma alone and a key is followed by a colon alone.

Main definitions:

* `commaSep` — texts with a comma between neighbours.
* `Json.Number.text` / `Json.text` — the text of a number and of a value.
-/

namespace JsonStencil

/-- The texts in order with a comma between neighbours. -/
def commaSep : List String → String
  | [] => ""
  | [text] => text
  | text :: next :: rest => text ++ "," ++ commaSep (next :: rest)

/-- Items between square brackets. -/
def bracketed (items : List String) : String := "[" ++ commaSep items ++ "]"

/-- Members between braces. -/
def braced (members : List String) : String := "\x7b" ++ commaSep members ++ "\x7d"

/-- The decimal digits of an integer, behind a minus sign if it is
negative. -/
def integerText : Int → String
  | .ofNat n => String.ofList (Nat.toDigits 10 n)
  | .negSucc n => String.ofList ('-' :: Nat.toDigits 10 (n + 1))

namespace Json

/-- The text of a number. -/
def Number.text : Number → String
  | .integer value => integerText value
  | .float value => value.text

mutual

/-- The compact text of a value. -/
def text : Json → String
  | .null => "null"
  | .bool true => "true"
  | .bool false => "false"
  | .number n => n.text
  | .string s => escaped s
  | .array items => bracketed (itemTexts items)
  | .object members => braced (memberTexts members)

/-- The text of every item. -/
def itemTexts : List Json → List String
  | [] => []
  | item :: rest => text item :: itemTexts rest

/-- The text of every member, the key in front. -/
def memberTexts : List (String × Json) → List String
  | [] => []
  | (key, value) :: rest => (escaped key ++ ":" ++ text value) :: memberTexts rest

end

end Json

end JsonStencil
