import JsonStencil.Json.Cursor

/-!
# Reading string literals

A string is read from behind its opening quote up to and including the
closing one. Escapes by four hexadecimal digits name UTF-16 units, so a
character beyond the sixteen-bit range takes two of them. Bytes that are no
UTF-8 are faults of the string as a whole, found when it is complete. The
fault is placed by counting back from the end of the literal over the bytes
that the string itself holds from the first such byte on, so that an escape
counts for the bytes of its character.

A string that nobody will use is passed over by a simpler rule, which looks
at escapes one by one and at neither surrogates nor UTF-8.

Main definitions:

* `Json.readString` — a string behind its opening quote.
* `Json.skipString` — passing over a string.
-/

namespace JsonStencil.Json

/-- The value of a hexadecimal digit of either case. -/
def hexValue? (b : UInt8) : Option Nat :=
  if byte '0' ≤ b && b ≤ byte '9' then some (b.toNat - 48)
  else if byte 'a' ≤ b && b ≤ byte 'f' then some (b.toNat - 87)
  else if byte 'A' ≤ b && b ≤ byte 'F' then some (b.toNat - 55)
  else none

/-- The number that hexadecimal digits stand for. -/
def hexNumber? (digits : List UInt8) : Option Nat :=
  digits.foldlM (fun n b => (hexValue? b).map fun digit => 16 * n + digit) 0

/-- Four hexadecimal digits. The four bytes are passed before they are
looked at. -/
def readHex (c : Cursor) : Except Fault (Nat × Cursor) :=
  if c.rest.length < 4 then (c.advanceBy c.rest.length).fail .eofString
  else match hexNumber? (c.rest.take 4) with
    | some n => .ok (n, c.advanceBy 4)
    | none => (c.advanceBy 4).fail .invalidEscape

/-- Whether a UTF-16 unit opens a pair. -/
def isLeading (unit : Nat) : Bool := 0xD800 ≤ unit && unit ≤ 0xDBFF

/-- Whether a UTF-16 unit closes a pair. -/
def isTrailing (unit : Nat) : Bool := 0xDC00 ≤ unit && unit ≤ 0xDFFF

/-- Passes one byte that a pair of escapes needs between its units. -/
def readBetween (expected : Char) (c : Cursor) : Except Fault (Unit × Cursor) :=
  match c.peek with
  | none => c.fail .eofString
  | some b =>
    if b = byte expected then .ok ((), c.advance)
    else c.advance.fail .unexpectedEndOfHexEscape

/-- The character that one escape by number, or a pair of them, stands
for. -/
def readUnicode (c : Cursor) : Except Fault (Char × Cursor) := do
  let (unit, c) ← readHex c
  if isTrailing unit then c.fail .loneSurrogate
  else if !isLeading unit then .ok (Char.ofNat unit, c)
  else
    let (_, c) ← readBetween '\\' c
    let (_, c) ← readBetween 'u' c
    let (second, c) ← readHex c
    if isTrailing second then
      .ok (Char.ofNat ((unit - 0xD800) * 1024 + (second - 0xDC00) + 0x10000), c)
    else c.fail .loneSurrogate

/-- The character that an escape by one letter stands for. -/
def letterEscape? (b : UInt8) : Option Char :=
  if b = byte '"' then some '"'
  else if b = byte '\\' then some '\\'
  else if b = byte '/' then some '/'
  else if b = byte 'b' then some '\x08'
  else if b = byte 'f' then some '\x0c'
  else if b = byte 'n' then some '\n'
  else if b = byte 'r' then some '\r'
  else if b = byte 't' then some '\t'
  else none

/-- The character that an escape stands for, behind its backslash. -/
def readEscape (c : Cursor) : Except Fault (Char × Cursor) :=
  match c.peek with
  | none => c.fail .eofString
  | some b =>
    match letterEscape? b with
    | some character => .ok (character, c.advance)
    | none =>
      if b = byte 'u' then readUnicode c.advance else c.advance.fail .invalidEscape

/-- The place a number of bytes earlier on the same line. -/
def Place.back (p : Place) (count : Nat) : Place := { p with column := p.column - count }

/-- The characters up to the closing quote, which is passed. `stray` counts
the bytes of the string from the first one on that is no UTF-8, if there is
one so far. -/
def readChars : (fuel : Nat) → (stray : Option Nat) → Cursor → Except Fault (List Char × Cursor)
  | 0, _, c => c.fail .eofString
  | fuel + 1, stray, c =>
    match c.peek with
    | none => c.fail .eofString
    | some b =>
      if b = byte '"' then
        match stray with
        | some count => .error ⟨.invalidUnicode, c.advance.place.back count, []⟩
        | none => .ok ([], c.advance)
      else if b = byte '\\' then do
        let (character, c) ← readEscape c.advance
        let (others, c) ← readChars fuel (stray.map (· + character.utf8Size)) c
        .ok (character :: others, c)
      else if b < 0x20 then c.advance.fail .controlCharacter
      else match Text.decodeChar? c.rest with
        | some (character, size) => do
          let (others, c) ← readChars fuel (stray.map (· + size)) (c.advanceBy size)
          .ok (character :: others, c)
        | none => readChars fuel (some (stray.getD 0 + 1)) c.advance

/-- A string behind its opening quote. -/
def readString (c : Cursor) : Except Fault (String × Cursor) := do
  let (characters, c) ← readChars (c.rest.length + 1) none c
  .ok (String.ofList characters, c)

/-! ## Passing over strings -/

/-- Passes an escape behind its backslash. -/
def skipEscape (c : Cursor) : Except Fault (Unit × Cursor) :=
  match c.peek with
  | none => c.fail .eofString
  | some b =>
    if (letterEscape? b).isSome then .ok ((), c.advance)
    else if b = byte 'u' then (readHex c.advance).map fun passed => ((), passed.2)
    else c.advance.fail .invalidEscape

/-- Passes bytes up to and including the closing quote. -/
def skipChars : (fuel : Nat) → Cursor → Except Fault (Unit × Cursor)
  | 0, c => c.fail .eofString
  | fuel + 1, c =>
    match c.peek with
    | none => c.fail .eofString
    | some b =>
      if b = byte '"' then .ok ((), c.advance)
      else if b = byte '\\' then do
        let (_, c) ← skipEscape c.advance
        skipChars fuel c
      else if b < 0x20 then c.fail .controlCharacter
      else skipChars fuel c.advance

/-- Passes a string behind its opening quote. -/
def skipString (c : Cursor) : Except Fault (Unit × Cursor) := skipChars (c.rest.length + 1) c

end JsonStencil.Json
