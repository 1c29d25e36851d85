import JsonStencil.Json.Numbers
import JsonStencil.Json.Strings

/-!
# Reading JSON text

Values are read with a bound on their nesting: arrays and objects may stand
inside each other to a depth of 127. What is between the brackets is read by
two loops that know nothing of the items and members themselves, so that the
readers of other shapes can use them too.

A value that nobody will use is passed over without a bound on its nesting.
A whole text may hold nothing but blanks behind its value.

Main definitions:

* `Json.readItems` / `Json.readMembers` — the inside of an array and of an
  object.
* `Json.readValue` — a value, repeated keys included.
* `Json.skipValue` — passing over a value.
* `Json.ofText` — the value of a whole text.
-/

namespace JsonStencil.Json

/-- How deeply arrays and objects may be nested. -/
def maxDepth : Nat := 127

/-! ## Between brackets -/

/-- Whether another item follows, and the cursor in front of it or of the
closing bracket. -/
def moreItems (first : Bool) (c : Cursor) : Except Fault (Bool × Cursor) :=
  let c := c.skipBlanks
  match c.peek with
  | none => c.failNext .eofList
  | some b =>
    if b = byte ']' then .ok (false, c)
    else if first then .ok (true, c)
    else if b = byte ',' then
      -- a comma promises another item
      let c := c.advance.skipBlanks
      match c.peek with
      | none => c.failNext .eofValue
      | some b => if b = byte ']' then c.failNext .trailingComma else .ok (true, c)
    else c.failNext .expectedListCommaOrEnd

/-- Whether another member follows, and the cursor behind the quote that
opens its key or in front of the closing brace. -/
def moreMembers (first : Bool) (c : Cursor) : Except Fault (Bool × Cursor) :=
  let c := c.skipBlanks
  match c.peek with
  | none => c.failNext .eofObject
  | some b =>
    if b = byte '\x7d' then .ok (false, c)
    else if first then
      if b = byte '"' then .ok (true, c.advance) else c.failNext .keyNotString
    else if b = byte ',' then
      let c := c.advance.skipBlanks
      match c.peek with
      | none => c.failNext .eofValue
      | some b =>
        if b = byte '"' then .ok (true, c.advance)
        else if b = byte '\x7d' then c.failNext .trailingComma
        else c.failNext .keyNotString
    else c.failNext .expectedObjectCommaOrEnd

/-- Passes the colon behind a key. -/
def readColon (c : Cursor) : Except Fault (Unit × Cursor) :=
  let c := c.skipBlanks
  match c.peek with
  | none => c.failNext .eofObject
  | some b => if b = byte ':' then .ok ((), c.advance) else c.failNext .expectedColon

/-- The items of an array behind its opening bracket, the closing one
included. -/
def readItems {α : Type} (item : Cursor → Except Fault (α × Cursor)) :
    (fuel position : Nat) → Cursor → Except Fault (List α × Cursor)
  | 0, _, c => c.failNext .eofList
  | fuel + 1, position, c => do
    let (more, c) ← moreItems (position == 0) c
    if more then
      let (value, c) ← under (.index position) (item c)
      let (others, c) ← readItems item fuel (position + 1) c
      .ok (value :: others, c)
    else .ok ([], c.advance)

/-- The next key, if another member follows. Behind a key stands its colon,
which is not passed yet. -/
def readKey? (first : Bool) (c : Cursor) : Except Fault (Option String × Cursor) := do
  let (more, c) ← under .unknown (moreMembers first c)
  if more then
    let (key, c) ← under .unknown (readString c)
    .ok (some key, c)
  else .ok (none, c.advance)

/-- The members of an object behind its opening brace, the closing one
included. -/
def readMembers {α : Type} (value : Cursor → Except Fault (α × Cursor)) :
    (fuel : Nat) → (first : Bool) → Cursor → Except Fault (List (String × α) × Cursor)
  | 0, _, c => c.failNext .eofObject
  | fuel + 1, first, c => do
    match ← readKey? first c with
    | (none, c) => .ok ([], c)
    | (some key, c) =>
      let (_, c) ← readColon c
      let (item, c) ← under (.key key) (value c)
      let (others, c) ← readMembers value fuel false c
      .ok ((key, item) :: others, c)

/-- Passes a word whose first byte has been looked at, and gives what it
stands for. -/
def readLiteral {α : Type} (others : String) (value : α) (c : Cursor) :
    Except Fault (α × Cursor) :=
  (c.advance.readWord (Text.bytes others)).map fun passed => (value, passed.2)

/-! ## Values -/

/-- A value of bounded depth. Repeated keys are kept. -/
def readValue : (depth : Nat) → Cursor → Except Fault (Json × Cursor)
  | depth, c =>
    let c := c.skipBlanks
    match c.peek with
    | none => c.failNext .eofValue
    | some b =>
      if b = byte 'n' then readLiteral "ull" .null c
      else if b = byte 't' then readLiteral "rue" (.bool true) c
      else if b = byte 'f' then readLiteral "alse" (.bool false) c
      else if b = byte '"' then
        (readString c.advance).map fun read => (.string read.1, read.2)
      else if b = byte '-' then
        (readNumber true c.advance).map fun read => (.number read.1, read.2)
      else if Cursor.isDigit b then
        (readNumber false c).map fun read => (.number read.1, read.2)
      else if b = byte '[' then
        match depth with
        | 0 => c.failNext .recursionLimit
        | depth + 1 =>
          (readItems (readValue depth) (c.rest.length + 1) 0 c.advance).map
            fun read => (.array read.1, read.2)
      else if b = byte '\x7b' then
        match depth with
        | 0 => c.failNext .recursionLimit
        | depth + 1 =>
          (readMembers (readValue depth) (c.rest.length + 1) true c.advance).map
            fun read => (.object read.1, read.2)
      else c.failNext .expectedValue

/-! ## Passing over values -/

/-- Passes the items of an array behind its opening bracket. -/
def skipItems (item : Cursor → Except Fault (Unit × Cursor)) :
    (fuel : Nat) → (first : Bool) → Cursor → Except Fault (Unit × Cursor)
  | 0, _, c => c.failNext .eofList
  | fuel + 1, first, c =>
    let c := c.skipBlanks
    match c.peek with
    | none => c.failNext .eofList
    | some b =>
      if b = byte ']' then .ok ((), c.advance)
      else if first then do
        let (_, c) ← item c
        skipItems item fuel false c
      else if b = byte ',' then do
        -- a comma in front of the closing bracket is a missing value here
        let (_, c) ← item c.advance
        skipItems item fuel false c
      else c.failNext .expectedListCommaOrEnd

/-- Passes a key with its quotes and the colon behind it. -/
def skipKey (c : Cursor) : Except Fault (Unit × Cursor) :=
  let c := c.skipBlanks
  match c.peek with
  | none => c.failNext .eofObject
  | some b =>
    if b = byte '"' then do
      let (_, c) ← skipString c.advance
      readColon c
    else c.failNext .keyNotString

/-- Passes the members of an object behind its opening brace. -/
def skipMembers (value : Cursor → Except Fault (Unit × Cursor)) :
    (fuel : Nat) → (first : Bool) → Cursor → Except Fault (Unit × Cursor)
  | 0, _, c => c.failNext .eofObject
  | fuel + 1, first, c =>
    let c := c.skipBlanks
    match c.peek with
    | none => c.failNext .eofObject
    | some b =>
      if b = byte '\x7d' then .ok ((), c.advance)
      else if first ∨ b = byte ',' then do
        let (_, c) ← skipKey (if first then c else c.advance)
        let (_, c) ← value c
        skipMembers value fuel false c
      else c.failNext .expectedObjectCommaOrEnd

/-- Passes a value. The first argument bounds its nesting. -/
def skipNested : (fuel : Nat) → Cursor → Except Fault (Unit × Cursor)
  | 0, c => c.failNext .eofValue
  | fuel + 1, c =>
    let c := c.skipBlanks
    match c.peek with
    | none => c.failNext .eofValue
    | some b =>
      if b = byte 'n' then readLiteral "ull" () c
      else if b = byte 't' then readLiteral "rue" () c
      else if b = byte 'f' then readLiteral "alse" () c
      else if b = byte '"' then skipString c.advance
      else if b = byte '-' then skipNumber c.advance
      else if Cursor.isDigit b then skipNumber c
      else if b = byte '[' then
        skipItems (skipNested fuel) (c.rest.length + 1) true c.advance
      else if b = byte '\x7b' then
        skipMembers (skipNested fuel) (c.rest.length + 1) true c.advance
      else c.failNext .expectedValue

/-- Passes a value of any nesting. -/
def skipValue (c : Cursor) : Except Fault (Unit × Cursor) := skipNested (c.rest.length + 1) c

/-! ## Whole texts -/

/-- The value of a whole text; of repeated keys the first place and the last
value count. -/
def ofText (text : String) : Except Fault Json := do
  let (value, c) ← readValue maxDepth (Cursor.start (Text.bytes text))
  let c := c.skipBlanks
  match c.peek with
  | none => .ok value.distinct
  | some _ => c.failNext .trailingCharacters

end JsonStencil.Json
