import JsonStencil.Json.Fault
import JsonStencil.Text.Utf8

/-!
# Cursors

A cursor stands in front of some byte of a text: it holds the bytes that are
left and its place. A reader takes a cursor and gives what it read with the
cursor behind it, or a fault.

Main definitions:

* `Json.Cursor` — a place in a text and what is left of it.
* `Json.Cursor.skipBlanks`, `takeDigits` — passing over bytes.
-/

namespace JsonStencil.Json

/-- The bytes that are left of a text and the place of the first of them. -/
structure Cursor where
  rest : List UInt8
  place : Place := ⟨1, 0⟩
deriving Repr

/-- The byte of an ASCII character. -/
def byte (c : Char) : UInt8 := c.toNat.toUInt8

/-- The place behind a byte. -/
def Place.past (p : Place) (b : UInt8) : Place :=
  if b = byte '\n' then ⟨p.line + 1, 0⟩ else ⟨p.line, p.column + 1⟩

namespace Cursor

/-- The cursor at the start of some bytes. -/
def start (bytes : List UInt8) : Cursor := ⟨bytes, ⟨1, 0⟩⟩

/-- The next byte. -/
def peek (c : Cursor) : Option UInt8 := c.rest.head?

/-- Passes the next byte. -/
def advance (c : Cursor) : Cursor :=
  match c.rest with
  | [] => c
  | b :: rest => ⟨rest, c.place.past b⟩

/-- Passes a number of bytes, or all if fewer are left. -/
def advanceBy : Nat → Cursor → Cursor
  | 0, c => c
  | n + 1, c => advanceBy n c.advance

/-- A fault found behind the bytes passed so far. -/
def fail {α : Type} (c : Cursor) (cause : Cause) : Except Fault α := .error ⟨cause, c.place, []⟩

/-- A fault found on looking at the next byte, which its place counts. -/
def failNext {α : Type} (c : Cursor) (cause : Cause) : Except Fault α := c.advance.fail cause

/-- Whether a byte is a space, a tab, a line feed or a carriage return. -/
def isBlank (b : UInt8) : Bool :=
  b == byte ' ' || b == byte '\n' || b == byte '\t' || b == byte '\r'

/-- Passes blanks from a place on. -/
def skipFrom : List UInt8 → Place → Cursor
  | [], place => ⟨[], place⟩
  | b :: rest, place => if isBlank b then skipFrom rest (place.past b) else ⟨b :: rest, place⟩

/-- Passes blanks. -/
def skipBlanks (c : Cursor) : Cursor := skipFrom c.rest c.place

/-- Whether a byte is a decimal digit. -/
def isDigit (b : UInt8) : Bool := byte '0' ≤ b && b ≤ byte '9'

/-- The value of a digit. -/
def digit (b : UInt8) : Nat := b.toNat - 48

/-- The values of the digits up to the first other byte, and the cursor
behind them. -/
def takeDigits (c : Cursor) : List Nat × Cursor :=
  let digits := c.rest.takeWhile isDigit
  (digits.map digit,
    ⟨c.rest.drop digits.length, ⟨c.place.line, c.place.column + digits.length⟩⟩)

/-- Passes the bytes of a word, the first of which has been passed. -/
def readWord : List UInt8 → Cursor → Except Fault (Unit × Cursor)
  | [], c => .ok ((), c)
  | expected :: others, c =>
    match c.peek with
    | none => c.fail .eofValue
    | some b => if b = expected then readWord others c.advance else c.failNext .expectedIdent

end Cursor

/-- A reading one level further out: a fault in it lies under a segment. -/
def under {α : Type} (segment : Segment) (reading : Except Fault α) : Except Fault α :=
  reading.mapError (Fault.under segment)

end JsonStencil.Json
