import JsonStencil.Text.Shown

/-!
# Faults in JSON text

Reading stops at the first fault. A fault says what is wrong, at which line
and column the reader stood when it found out, and inside which member or
item. Columns count the bytes of the current line that have been passed; a
line feed starts column 0 of the next line.

Main definitions:

* `Json.Cause` / `Json.Cause.message` — what can be wrong, and its wording.
* `Json.Place` — a line and a column.
* `Json.Segment` / `Json.pathText` — the way to a member or an item.
* `Json.Fault` — a fault.
-/

namespace JsonStencil.Json

/-- What can be wrong with JSON text. -/
inductive Cause where
  | eofValue
  | eofString
  | eofList
  | eofObject
  | expectedValue
  | expectedIdent
  | expectedColon
  | expectedListCommaOrEnd
  | expectedObjectCommaOrEnd
  | trailingComma
  | trailingCharacters
  | keyNotString
  | invalidNumber
  | numberOutOfRange
  | controlCharacter
  | invalidEscape
  | loneSurrogate
  | unexpectedEndOfHexEscape
  | invalidUnicode
  | recursionLimit
deriving DecidableEq, Repr

/-- The wording of a cause. -/
def Cause.message : Cause → String
  | .eofValue => "EOF while parsing a value"
  | .eofString => "EOF while parsing a string"
  | .eofList => "EOF while parsing a list"
  | .eofObject => "EOF while parsing an object"
  | .expectedValue => "expected value"
  | .expectedIdent => "expected ident"
  | .expectedColon => "expected `:`"
  | .expectedListCommaOrEnd => "expected `,` or `]`"
  | .expectedObjectCommaOrEnd => "expected `,` or `\x7d`"
  | .trailingComma => "trailing comma"
  | .trailingCharacters => "trailing characters"
  | .keyNotString => "key must be a string"
  | .invalidNumber => "invalid number"
  | .numberOutOfRange => "number out of range"
  | .controlCharacter => "control character (\\u0000-\\u001F) found while parsing a string"
  | .invalidEscape => "invalid escape"
  | .loneSurrogate => "lone leading surrogate in hex escape"
  | .unexpectedEndOfHexEscape => "unexpected end of hex escape"
  | .invalidUnicode => "invalid unicode code point"
  | .recursionLimit => "recursion limit exceeded"

/-- A line, counted from 1, and the number of its bytes passed. -/
structure Place where
  line : Nat
  column : Nat
deriving DecidableEq, Repr, Inhabited

/-- The wording of a place. -/
def Place.text (p : Place) : String := s!"line {p.line} column {p.column}"

/-- One step on the way to a value inside a document. -/
inductive Segment where
  | key (name : String)
  | index (position : Nat)
  /-- A member whose key is not known yet. -/
  | unknown
deriving DecidableEq, Repr

/-- The rest of a path behind its first segment. -/
def pathRest : List Segment → String
  | [] => ""
  | .key name :: rest => "." ++ name ++ pathRest rest
  | .index position :: rest => s!"[{position}]" ++ pathRest rest
  | .unknown :: rest => ".?" ++ pathRest rest

/-- The wording of a path: keys behind a point, indices in brackets, and a
point alone for the whole document. -/
def pathText : List Segment → String
  | [] => "."
  | .key name :: rest => name ++ pathRest rest
  | .index position :: rest => s!"[{position}]" ++ pathRest rest
  | .unknown :: rest => "?" ++ pathRest rest

/-- What is wrong, where the reader stood, and inside which value. -/
structure Fault where
  cause : Cause
  place : Place
  path : List Segment := []
deriving DecidableEq, Repr

/-- The wording of a fault, its path left aside. -/
def Fault.message (f : Fault) : String := f.cause.message ++ " at " ++ f.place.text

/-- The fault seen from one level further out. -/
def Fault.under (segment : Segment) (f : Fault) : Fault :=
  { f with path := segment :: f.path }

end JsonStencil.Json
