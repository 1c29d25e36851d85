import JsonStencil.Json.Basic
import JsonStencil.Text.Split

/-!
# JSON pointers

A pointer selects a value inside a document. It is empty or a list of
tokens, each behind a slash; inside a token `~1` stands for a slash and `~0`
for a tilde. A token names a member of an object or, in decimal digits
without leading zeros, an item of an array.

Main definitions:

* `Json.pointerTokens?` — the tokens of a pointer.
* `Json.select` — the value that tokens lead to.
* `Json.point` — the value that a pointer selects.
-/

namespace JsonStencil.Json

/-- Reads `~1` as a slash and `~0` as a tilde. Any other tilde stands for
itself. -/
def unescapeToken : List Char → List Char
  | '~' :: '1' :: rest => '/' :: unescapeToken rest
  | '~' :: '0' :: rest => '~' :: unescapeToken rest
  | c :: rest => c :: unescapeToken rest
  | [] => []

/-- The tokens of a pointer, none if its text starts otherwise than with a
slash. -/
def pointerTokens? (pointer : String) : Option (List String) :=
  match Text.pieces '/' pointer.toList with
  | [] :: tokens => some (tokens.map fun token => String.ofList (unescapeToken token))
  | _ => none

/-- The position that a token names: digits, and no zero in front of
others. -/
def tokenIndex? (token : String) : Option Nat :=
  match token.toList with
  | [] => none
  | ['0'] => some 0
  | first :: rest =>
    if first ≠ '0' ∧ (first :: rest).all Char.isDigit then
      some ((first :: rest).foldl (fun n digit => n * 10 + (digit.toNat - '0'.toNat)) 0)
    else none

/-- The member or item that a token names. -/
def child? : Json → String → Option Json
  | .object members, token => members.lookup token
  | .array items, token => (tokenIndex? token).bind (items[·]?)
  | _, _ => none

/-- The value that tokens lead to, one level each. -/
def select : Json → List String → Option Json
  | value, [] => some value
  | value, token :: rest => (value.child? token).bind (select · rest)

/-- The value that a pointer selects. -/
def point (document : Json) (pointer : String) : Option Json :=
  (pointerTokens? pointer).bind document.select

end JsonStencil.Json
