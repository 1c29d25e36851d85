import JsonStencil.Document.OfJson
import JsonStencil.Json.Reader

/-!
# Reading schema documents

A document is read from text keyword by keyword, so that a value of a wrong
shape is reported before anything wrong behind it. Members without a meaning
are passed over. A keyword that allows several shapes is read as a JSON value
first and checked then. What follows the document in the text is not looked
at.

A fault in the shape of a whole object or array is placed where the reader
stands after it has tried to pass the closing bracket.

Main definitions:

* `Document.readDocument` — a document inside a text.
* `Document.ofBytes` / `Document.ofText` — the document at the start of a
  text.
-/

namespace JsonStencil.Document

open Json (Cursor byte)

/-! ## Faults -/

/-- A reading of JSON text as a reading of a document. -/
def lift {α : Type} (reading : Except Json.Fault α) : Except Fault α :=
  reading.mapError Fault.ofText

/-- A fault of the text, found on looking at the next byte. -/
def failNext {α : Type} (c : Cursor) (cause : Json.Cause) : Except Fault α :=
  lift (c.failNext cause)

/-- What a value of a wrong shape is, and the place behind as much of it as
tells. -/
def readFound (c : Cursor) : Except Json.Fault (Found × Json.Place) :=
  match c.peek with
  | none => c.failNext .eofValue
  | some b =>
    if b = byte 'n' then
      (Json.readLiteral "ull" () c).map fun read => (.null, read.2.place)
    else if b = byte 't' then
      (Json.readLiteral "rue" () c).map fun read => (.bool true, read.2.place)
    else if b = byte 'f' then
      (Json.readLiteral "alse" () c).map fun read => (.bool false, read.2.place)
    else if b = byte '-' then
      (Json.readNumber true c.advance).map fun read => (.number read.1, read.2.place)
    else if Cursor.isDigit b then
      (Json.readNumber false c).map fun read => (.number read.1, read.2.place)
    else if b = byte '"' then
      (Json.readString c.advance).map fun read => (.string read.1, read.2.place)
    else if b = byte '[' then .ok (.sequence, c.place)
    else if b = byte '\x7b' then .ok (.map, c.place)
    else c.failNext .expectedValue

/-- The fault of a value of a wrong shape. -/
def misshapen {α : Type} (expected : Shape) (c : Cursor) : Except Fault α := do
  let found ← lift (readFound c)
  .error ⟨.wrongShape found.1 expected, some found.2, []⟩

/-- The place behind an object that could not be used, as far as it can be
passed: its closing brace if that comes next. -/
def behindObject (c : Cursor) : Json.Place :=
  let c := c.skipBlanks
  if c.peek = some (byte '\x7d') then c.advance.place else c.place

/-- The place behind an array that could not be used, as far as it can be
passed: its closing bracket if that comes next, or a comma and the blanks
behind it. -/
def behindArray (c : Cursor) : Json.Place :=
  let c := c.skipBlanks
  if c.peek = some (byte ']') then c.advance.place
  else if c.peek = some (byte ',') then c.advance.skipBlanks.place
  else c.place

/-! ## Between brackets -/

/-- The items of an array behind its opening bracket, the closing one
included. -/
def readItems {α : Type} (item : Cursor → Except Fault (α × Cursor)) :
    (fuel position : Nat) → Cursor → Except Fault (List α × Cursor)
  | 0, _, c => failNext c .eofList
  | fuel + 1, position, c => do
    let (more, c) ← lift (Json.moreItems (position == 0) c)
    if more then
      let (value, c) ← inside (.index position) (item c)
      let (others, c) ← readItems item fuel (position + 1) c
      .ok (value :: others, c)
    else .ok ([], c.advance)

/-- The members of an object behind its opening brace, the closing one
included. -/
def readMembers {α : Type} (value : Cursor → Except Fault (α × Cursor)) :
    (fuel : Nat) → (first : Bool) → Cursor → Except Fault (List (String × α) × Cursor)
  | 0, _, c => failNext c .eofObject
  | fuel + 1, first, c => do
    match ← lift (Json.readKey? first c) with
    | (none, c) => .ok ([], c)
    | (some key, c) =>
      let (_, c) ← lift (Json.readColon c)
      let (item, c) ← inside (.key key) (value c)
      let (others, c) ← readMembers value fuel false c
      .ok ((key, item) :: others, c)

/-- An array whose items are read by `item`; none if it may not be nested any
deeper. -/
def readArray {α : Type} (item : Option (Cursor → Except Fault (α × Cursor))) (c : Cursor) :
    Except Fault (List α × Cursor) :=
  let c := c.skipBlanks
  if c.peek = some (byte '[') then
    match item with
    | some item => readItems item (c.rest.length + 1) 0 c.advance
    | none => failNext c .recursionLimit
  else misshapen .sequence c

/-- An object whose members are read by `value`; none if it may not be nested
any deeper. Of a repeated key the first place and the last value count. -/
def readMap {α : Type} (value : Option (Cursor → Except Fault (α × Cursor))) (c : Cursor) :
    Except Fault (List (String × α) × Cursor) :=
  let c := c.skipBlanks
  if c.peek = some (byte '\x7b') then
    match value with
    | some value => do
      let (members, c) ← readMembers value (c.rest.length + 1) true c.advance
      .ok (Fields.ofPairs members, c)
    | none => failNext c .recursionLimit
  else misshapen .map c

/-- A string. -/
def readString (c : Cursor) : Except Fault (String × Cursor) :=
  let c := c.skipBlanks
  if c.peek = some (byte '"') then lift (Json.readString c.advance) else misshapen .string c

/-! ## Keywords -/

/-- How deeply a value of a keyword may be nested, and how documents inside
the arrays and objects of such a value are read. -/
structure Nesting where
  depth : Nat
  document : Option (Cursor → Except Fault (Document × Cursor))

/-- A value that is checked only when it has been read; a wrong shape is
placed by `settle`. -/
def readChecked (n : Nesting) (settle : Cursor → Json.Place) (d : Document)
    (keyword : Keyword) (c : Cursor) : Except Fault (Document × Cursor) := do
  let (value, c) ← lift (Json.readValue n.depth c)
  match withKeyword d keyword value with
  | .ok d => .ok (d, c)
  | .error fault => .error { fault with place := some (settle c) }

/-- The value of a keyword, which null leaves absent. -/
def readKeyword (n : Nesting) (settle : Cursor → Json.Place) (d : Document)
    (keyword : Keyword) (c : Cursor) : Except Fault (Document × Cursor) := do
  let c := c.skipBlanks
  if c.peek = some (byte 'n') then lift (Json.readLiteral "ull" d c)
  else match keyword with
    | .type | .additionalProperties | .items | .default => readChecked n settle d keyword c
    | .properties =>
      let (properties, c) ← readMap n.document c
      .ok ({ d with properties := some properties }, c)
    | .patternProperties =>
      let (patterns, c) ← readMap n.document c
      .ok ({ d with patternProperties := some patterns }, c)
    | .required =>
      let (names, c) ← readArray (if n.depth = 0 then none else some readString) c
      .ok ({ d with required := some names }, c)
    | .prefixItems =>
      let (items, c) ← readArray n.document c
      .ok ({ d with prefixItems := some items }, c)
    | .anyOf =>
      let (members, c) ← readArray n.document c
      .ok ({ d with anyOf := some members }, c)
    | .allOf =>
      let (members, c) ← readArray n.document c
      .ok ({ d with allOf := some members }, c)
    | .format =>
      let (format, c) ← readString c
      .ok ({ d with format := some format }, c)

/-- The members of an object of keywords behind its opening brace, the
closing one included. -/
def readKeywords (n : Nesting) : (fuel : Nat) → (seen : List Keyword) → (first : Bool) →
    Document → Cursor → Except Fault (Document × Cursor)
  | 0, _, _, _, c => failNext c .eofObject
  | fuel + 1, seen, first, d, c => do
    match ← lift (Json.readKey? first c) with
    | (none, c) => .ok (d, c)
    | (some key, c) =>
      match Keyword.ofName? key with
      -- a member without a meaning must be well formed all the same
      | none =>
        let (_, c) ← lift (Json.readColon c)
        let (_, c) ← inside (.key key) (lift (Json.skipValue c))
        readKeywords n fuel seen false d c
      | some keyword =>
        -- a repetition is told before the value is looked at
        if keyword ∈ seen then .error ⟨.repeated keyword, some (behindObject c), []⟩
        else
          let (_, c) ← lift (Json.readColon c)
          let (d, c) ← inside (.key key) (readKeyword n behindObject d keyword c)
          readKeywords n fuel (keyword :: seen) false d c

/-- Passes the closing bracket of an array that has given all keywords. -/
def readArrayEnd (c : Cursor) : Except Json.Fault (Unit × Cursor) :=
  let c := c.skipBlanks
  match c.peek with
  | none => c.failNext .eofList
  | some b =>
    if b = byte ']' then .ok ((), c.advance)
    else if b = byte ',' then
      let c := c.advance.skipBlanks
      if c.peek = some (byte ']') then c.failNext .trailingComma
      else c.failNext .trailingCharacters
    else c.failNext .trailingCharacters

/-- The values of the keywords in their order, behind the opening bracket of
an array, the closing one included. -/
def readPositions (n : Nesting) :
    List Keyword → (position : Nat) → Document → Cursor → Except Fault (Document × Cursor)
  | [], _, d, c => (lift (readArrayEnd c)).map fun passed => (d, passed.2)
  | keyword :: others, position, d, c => do
    let (more, c) ← lift (Json.moreItems (position == 0) c)
    if more then
      let (d, c) ← inside (.index position) (readKeyword n behindArray d keyword c)
      readPositions n others (position + 1) d c
    else .error ⟨.tooShort position, some (behindArray c), []⟩

/-! ## Documents -/

/-- A document: an object of keywords, or an array of the values of all
keywords. -/
def readDocument : (depth : Nat) → Cursor → Except Fault (Document × Cursor)
  | 0, c =>
    let c := c.skipBlanks
    if c.peek = some (byte '\x7b') ∨ c.peek = some (byte '[') then failNext c .recursionLimit
    else misshapen .document c
  | depth + 1, c =>
    let c := c.skipBlanks
    let nesting : Nesting :=
      { depth := depth
        document := match depth with
          | 0 => none
          | deeper + 1 => some (readDocument deeper) }
    if c.peek = some (byte '\x7b') then
      readKeywords nesting (c.rest.length + 1) [] true {} c.advance
    else if c.peek = some (byte '[') then readPositions nesting Keyword.all 0 {} c.advance
    else misshapen .document c

/-- The document at the start of some bytes; what follows is not looked
at. -/
def ofBytes (bytes : List UInt8) : Except Fault Document :=
  (readDocument Json.maxDepth (Cursor.start bytes)).map Prod.fst

/-- The document at the start of a text; what follows is not looked at. -/
def ofText (text : String) : Except Fault Document := ofBytes (Text.bytes text)

end JsonStencil.Document
