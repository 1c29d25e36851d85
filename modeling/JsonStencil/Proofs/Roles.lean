import JsonStencil.Document.OfJson
import JsonStencil.Proofs.PassingOver

/-!
# Reading values in their roles

A reader of documents does not need the value of a member that has no meaning
to it, and passes over such a value by rules of its own. What it reads of a
text as a JSON value is told by a reader that knows what every value is taken
for: of a value that is passed over it makes null. A value that is looked at as
a whole is read as any JSON value is.

Main definitions:

* `Document.Role` — what a reader of documents takes a value for.
* `Document.readAs` — reading a value in a role.

Main results:

* `readAs_plain` — a value that is looked at as a whole.
* `readAs_eq_array` / `readAs_eq_object` — what an array and an object are
  read of.
* `beginsWith_of_readAs` — the byte that a value begins with.
-/

namespace JsonStencil.Document

open Json (Cursor byte)

/-! ## Roles -/

/-- What a reader of documents takes a value for. -/
inductive Role where
  /-- A document. -/
  | document
  /-- An array of documents. -/
  | documents
  /-- An object whose members are documents. -/
  | fields
  /-- A value that is looked at as a whole. -/
  | plain
  /-- A value that nobody will use. -/
  | unused
deriving DecidableEq, Repr

namespace Role

/-- The role of the value of a keyword. -/
def ofKeyword : Keyword → Role
  | .properties | .patternProperties => .fields
  | .prefixItems | .anyOf | .allOf => .documents
  | _ => .plain

/-- The role of an item. An array that is a document gives the values of all
keywords. -/
def item (position : Nat) : Role → Role
  | .document => (Keyword.all[position]?.map ofKeyword).getD .plain
  | .documents => .document
  | _ => .plain

/-- The role of a member. A document has no use for a key without a
meaning. -/
def member (key : String) : Role → Role
  | .document => ((Keyword.ofName? key).map ofKeyword).getD .unused
  | .fields => .document
  | _ => .plain

/-- How many items are counted. The items of a document are counted by the
keywords, those of another array by the bytes that are left. -/
def steps (c : Cursor) : Role → Nat
  | .document => c.rest.length + 1 + Keyword.all.length
  | _ => c.rest.length + 1

/-- In every role items are counted at least by the bytes left. -/
theorem le_steps (role : Role) (c : Cursor) : c.rest.length + 1 ≤ role.steps c := by
  cases role with
  | document => exact Nat.le_add_right _ _
  | _ => exact Nat.le_refl _

/-- Inside a value looked at as a whole, everything is. -/
@[simp] theorem item_plain (position : Nat) : Role.plain.item position = .plain := rfl

/-- The items of an array of documents are documents. -/
@[simp] theorem item_documents (position : Nat) : Role.documents.item position = .document := rfl

/-- So are the members of such a value looked at as a whole. -/
@[simp] theorem member_plain (key : String) : Role.plain.member key = .plain := rfl

/-- The members of an object of documents are documents. -/
@[simp] theorem member_fields (key : String) : Role.fields.member key = .document := rfl

end Role

/-! ## Reading values in their roles -/

/-- The items of an array behind its opening bracket, each read as its place
asks for. -/
def readItemsBy (item : Nat → Cursor → Except Json.Fault (Json × Cursor)) :
    (fuel position : Nat) → Cursor → Except Json.Fault (List Json × Cursor)
  | 0, _, c => c.failNext .eofList
  | fuel + 1, position, c => do
    let (more, c) ← Json.moreItems (position == 0) c
    if more then
      let (value, c) ← Json.under (.index position) (item position c)
      let (others, c) ← readItemsBy item fuel (position + 1) c
      .ok (value :: others, c)
    else .ok ([], c.advance)

/-- The members of an object behind its opening brace, each read as its key
asks for. -/
def readMembersBy (value : String → Cursor → Except Json.Fault (Json × Cursor)) :
    (fuel : Nat) → (first : Bool) → Cursor → Except Json.Fault (List (String × Json) × Cursor)
  | 0, _, c => c.failNext .eofObject
  | fuel + 1, first, c => do
    match ← Json.readKey? first c with
    | (none, c) => .ok ([], c)
    | (some key, c) =>
      let (_, c) ← Json.readColon c
      let (item, c) ← Json.under (.key key) (value key c)
      let (others, c) ← readMembersBy value fuel false c
      .ok ((key, item) :: others, c)

/-- A value of bounded depth in its role. What is unused is passed over, and
null stands in its place. -/
def readAs : (depth : Nat) → Role → Cursor → Except Json.Fault (Json × Cursor)
  | depth, role, c =>
    if role = .unused then (Json.skipValue c).map fun passed => (.null, passed.2)
    else
      let c := c.skipBlanks
      if c.peek = some (byte '[') then
        match depth with
        | 0 => c.failNext .recursionLimit
        | depth + 1 =>
          (readItemsBy (fun position => readAs depth (role.item position)) (role.steps c) 0
            c.advance).map fun read => (.array read.1, read.2)
      else if c.peek = some (byte '\x7b') then
        match depth with
        | 0 => c.failNext .recursionLimit
        | depth + 1 =>
          (readMembersBy (fun key => readAs depth (role.member key)) (c.rest.length + 1) true
            c.advance).map fun read => (.object read.1, read.2)
      -- nothing inside of any other value can be passed over
      else Json.readValue depth c

section Reading

variable {depth : Nat} {role : Role} {c behind : Cursor}

/-- What is unused is passed over. -/
theorem readAs_unused : readAs depth .unused c =
    (Json.skipValue c).map fun passed => (.null, passed.2) := by
  rw [readAs.eq_def]
  rfl

/-- Behind a bracket items are read, a level further in. -/
theorem readAs_bracket (h : role ≠ .unused) (hPeek : c.skipBlanks.peek = some (byte '[')) :
    readAs (depth + 1) role c =
      (readItemsBy (fun position => readAs depth (role.item position)) (role.steps c.skipBlanks) 0
        c.skipBlanks.advance).map fun read => (.array read.1, read.2) := by
  rw [readAs.eq_def]
  dsimp only
  rw [if_neg h, if_pos hPeek]

/-- Behind a brace members are. -/
theorem readAs_brace (h : role ≠ .unused) (hPeek : c.skipBlanks.peek = some (byte '\x7b')) :
    readAs (depth + 1) role c =
      (readMembersBy (fun key => readAs depth (role.member key)) (c.skipBlanks.rest.length + 1) true
        c.skipBlanks.advance).map fun read => (.object read.1, read.2) := by
  have hBracket : c.skipBlanks.peek ≠ some (byte '[') := by
    rw [hPeek]
    decide
  rw [readAs.eq_def]
  dsimp only
  rw [if_neg h, if_neg hBracket, if_pos hPeek]

/-- Anything else is read as a value. -/
theorem readAs_leaf (h : role ≠ .unused) (hBracket : c.skipBlanks.peek ≠ some (byte '['))
    (hBrace : c.skipBlanks.peek ≠ some (byte '\x7b')) :
    readAs depth role c = Json.readValue depth c.skipBlanks := by
  rw [readAs.eq_def]
  dsimp only
  rw [if_neg h, if_neg hBracket, if_neg hBrace]

end Reading

section Steps

variable {item : Nat → Cursor → Except Json.Fault (Json × Cursor)}
  {value : String → Cursor → Except Json.Fault (Json × Cursor)} {fuel position : Nat}
  {first : Bool} {c behind : Cursor}

/-- Between brackets there is nothing, or an item and what is left. -/
theorem readItemsBy_succ {values : List Json} :
    readItemsBy item (fuel + 1) position c = .ok (values, behind) ↔
      (∃ between, Json.moreItems (position == 0) c = .ok (false, between) ∧ values = [] ∧
        between.advance = behind) ∨
      ∃ between after first others, Json.moreItems (position == 0) c = .ok (true, between) ∧
        item position between = .ok (first, after) ∧
        readItemsBy item fuel (position + 1) after = .ok (others, behind) ∧
        values = first :: others := by
  rw [readItemsBy, bind_eq_ok]
  constructor
  · rintro ⟨⟨more, between⟩, hMore, hRest⟩
    -- the closing bracket, or an item
    cases more with
    | false =>
      cases hRest
      exact Or.inl ⟨between, hMore, rfl, rfl⟩
    | true =>
      obtain ⟨⟨first, after⟩, hFirst, hRest⟩ := bind_inv hRest
      obtain ⟨⟨others, last⟩, hOthers, hEnd⟩ := bind_inv hRest
      cases hEnd
      exact Or.inr ⟨between, after, first, others, hMore, mapError_inv hFirst, hOthers, rfl⟩
  · rintro (⟨between, hMore, rfl, rfl⟩ |
      ⟨between, after, first, others, hMore, hFirst, hOthers, rfl⟩)
    · exact ⟨_, hMore, rfl⟩
    · exact ⟨_, hMore, bind_eq_ok.mpr ⟨_, mapError_eq_ok.mpr hFirst,
        bind_eq_ok.mpr ⟨_, hOthers, rfl⟩⟩⟩

/-- Between braces there is nothing, or a member and what is left. -/
theorem readMembersBy_succ {members : List (String × Json)} :
    readMembersBy value (fuel + 1) first c = .ok (members, behind) ↔
      (Json.readKey? first c = .ok (none, behind) ∧ members = []) ∨
      ∃ key between colon after item others, Json.readKey? first c = .ok (some key, between) ∧
        Json.readColon between = .ok ((), colon) ∧ value key colon = .ok (item, after) ∧
        readMembersBy value fuel false after = .ok (others, behind) ∧
        members = (key, item) :: others := by
  rw [readMembersBy, bind_eq_ok]
  constructor
  · rintro ⟨⟨key?, between⟩, hKey, hRest⟩
    -- the closing brace, or a key
    cases key? with
    | none =>
      cases hRest
      exact Or.inl ⟨hKey, rfl⟩
    | some key =>
      obtain ⟨⟨_, colon⟩, hColon, hRest⟩ := bind_inv hRest
      obtain ⟨⟨item, after⟩, hItem, hRest⟩ := bind_inv hRest
      obtain ⟨⟨others, last⟩, hOthers, hEnd⟩ := bind_inv hRest
      cases hEnd
      exact Or.inr ⟨key, between, colon, after, item, others, hKey, hColon, mapError_inv hItem,
        hOthers, rfl⟩
  · rintro (⟨hKey, rfl⟩ |
      ⟨key, between, colon, after, item, others, hKey, hColon, hItem, hOthers, rfl⟩)
    · exact ⟨_, hKey, rfl⟩
    · exact ⟨_, hKey, bind_eq_ok.mpr ⟨_, hColon, bind_eq_ok.mpr ⟨_, mapError_eq_ok.mpr hItem,
        bind_eq_ok.mpr ⟨_, hOthers, rfl⟩⟩⟩⟩

/-- Items that are read in one way are read as values are. -/
theorem readItemsBy_const {reader : Cursor → Except Json.Fault (Json × Cursor)} :
    readItemsBy (fun _ => reader) fuel position c = Json.readItems reader fuel position c := by
  induction fuel generalizing position c with
  | zero => rfl
  | succ fuel ih => simp only [readItemsBy, Json.readItems, ih]

/-- So are members that are read in one way. -/
theorem readMembersBy_const {reader : Cursor → Except Json.Fault (Json × Cursor)} :
    readMembersBy (fun _ => reader) fuel first c = Json.readMembers reader fuel first c := by
  induction fuel generalizing first c with
  | zero => rfl
  | succ fuel ih =>
    -- both look for a key, and go on alike behind it
    refine bind_congr fun read => ?_
    obtain ⟨_ | key, between⟩ := read
    · rfl
    · exact bind_congr fun _ => bind_congr fun item =>
        congrArg (· >>= fun others => .ok ((key, item.1) :: others.1, others.2)) ih

end Steps

/-! ## What a value is read from -/

/-- The byte that a value begins with tells whether it is null, a string, an
array or an object. -/
def BeginsWith (b : UInt8) : Json → Prop
  | .null => b = byte 'n'
  | .string _ => b = byte '"'
  | .array _ => b = byte '['
  | .object _ => b = byte '\x7b'
  | _ => b ≠ byte 'n' ∧ b ≠ byte '"' ∧ b ≠ byte '[' ∧ b ≠ byte '\x7b'

/-- No bracket opens another value. -/
theorem BeginsWith.of_leaf {b : UInt8} {j : Json} (h : BeginsWith b j)
    (hArray : ∀ items, j ≠ .array items) (hObject : ∀ members, j ≠ .object members) :
    b ≠ byte '[' ∧ b ≠ byte '\x7b' := by
  cases j with
  | null | string _ =>
    rw [show b = _ from h]
    decide
  | bool _ | number _ => exact h.2.2
  | array items => exact absurd rfl (hArray items)
  | object members => exact absurd rfl (hObject members)

/-- The byte that a value begins with tells what it is. -/
theorem beginsWith_of_readValue {depth : Nat} {c behind : Cursor} {j : Json}
    (h : Json.readValue depth c = .ok (j, behind)) :
    ∃ b, c.skipBlanks.peek = some b ∧ BeginsWith b j := by
  cases Json.isRead_of_readValue h with
  | null hPeek | string hPeek | array hPeek | object hPeek => exact ⟨_, hPeek, rfl⟩
  | bool_true hPeek | bool_false hPeek | negative hPeek =>
    exact ⟨_, hPeek, by decide, by decide, by decide, by decide⟩
  | digits hPeek hDigit =>
    exact ⟨_, hPeek, Json.ne_of_isDigit hDigit (by decide), Json.ne_of_isDigit hDigit (by decide),
      Json.ne_of_isDigit hDigit (by decide), Json.ne_of_isDigit hDigit (by decide)⟩

/-- A quote opens a string. -/
theorem readValue_of_quote {depth : Nat} {c : Cursor}
    (h : c.skipBlanks.peek = some (byte '"')) : Json.readValue depth c =
      (Json.readString c.skipBlanks.advance).map fun read => (.string read.1, read.2) := by
  rw [Json.readValue.eq_def]
  simp only [h]
  rfl

/-- The first letter of the word opens null. -/
theorem readValue_of_null {depth : Nat} {c : Cursor}
    (h : c.skipBlanks.peek = some (byte 'n')) :
    Json.readValue depth c = Json.readLiteral "ull" .null c.skipBlanks := by
  rw [Json.readValue.eq_def]
  simp only [h]
  rfl

/-- A bracket opens an array. -/
theorem readValue_of_bracket {depth : Nat} {c : Cursor}
    (h : c.skipBlanks.peek = some (byte '[')) : Json.readValue (depth + 1) c =
      (Json.readItems (Json.readValue depth) (c.skipBlanks.rest.length + 1) 0
        c.skipBlanks.advance).map fun read => (.array read.1, read.2) := by
  rw [Json.readValue.eq_def]
  simp only [h]
  rfl

/-- A brace opens an object. -/
theorem readValue_of_brace {depth : Nat} {c : Cursor}
    (h : c.skipBlanks.peek = some (byte '\x7b')) : Json.readValue (depth + 1) c =
      (Json.readMembers (Json.readValue depth) (c.skipBlanks.rest.length + 1) true
        c.skipBlanks.advance).map fun read => (.object read.1, read.2) := by
  rw [Json.readValue.eq_def]
  simp only [h]
  rfl

/-- Blanks in front of a value do not matter. -/
theorem readValue_skipBlanks (depth : Nat) (c : Cursor) :
    Json.readValue depth c.skipBlanks = Json.readValue depth c := by
  rw [Json.readValue.eq_def, Json.readValue.eq_def depth c]
  dsimp only
  rw [Json.Cursor.skipBlanks_skipBlanks]

/-! ## What arrays and objects are read of -/

section Values

variable {depth : Nat} {role : Role} {c behind : Cursor}

/-- No array or object is read at the last level. -/
theorem readAs_zero_ne_ok {j : Json} (h : role ≠ .unused)
    (hPeek : c.skipBlanks.peek = some (byte '[') ∨ c.skipBlanks.peek = some (byte '\x7b')) :
    readAs 0 role c ≠ .ok (j, behind) := by
  rw [readAs.eq_def]
  dsimp only
  rw [if_neg h]
  split
  · exact nofun
  · split
    · exact nofun
    · next hBracket hBrace => exact absurd hPeek (not_or_intro hBracket hBrace)

/-- In a role, too, the byte that a value begins with tells what it is. -/
theorem beginsWith_of_readAs (h : role ≠ .unused) {j : Json}
    (hRead : readAs depth role c = .ok (j, behind)) :
    ∃ b, c.skipBlanks.peek = some b ∧ BeginsWith b j := by
  by_cases hBracket : c.skipBlanks.peek = some (byte '[')
  · cases depth with
    | zero => exact absurd hRead (readAs_zero_ne_ok h (Or.inl hBracket))
    | succ deeper =>
      rw [readAs_bracket h hBracket] at hRead
      obtain ⟨_, -, hEq⟩ := map_inv hRead
      cases hEq
      exact ⟨_, hBracket, rfl⟩
  · -- what is neither an array nor an object is read as a value
    by_cases hBrace : c.skipBlanks.peek = some (byte '\x7b')
    · cases depth with
      | zero => exact absurd hRead (readAs_zero_ne_ok h (Or.inr hBrace))
      | succ deeper =>
        rw [readAs_brace h hBrace] at hRead
        obtain ⟨_, -, hEq⟩ := map_inv hRead
        cases hEq
        exact ⟨_, hBrace, rfl⟩
    · rw [readAs_leaf h hBracket hBrace, readValue_skipBlanks] at hRead
      exact beginsWith_of_readValue hRead

/-- An array is read item by item in every role. -/
theorem readAs_eq_array (h : role ≠ .unused) {items : List Json} :
    readAs depth role c = .ok (.array items, behind) ↔
      c.skipBlanks.peek = some (byte '[') ∧ ∃ deeper, depth = deeper + 1 ∧
        readItemsBy (fun position => readAs deeper (role.item position)) (role.steps c.skipBlanks)
          0 c.skipBlanks.advance = .ok (items, behind) := by
  by_cases hBracket : c.skipBlanks.peek = some (byte '[')
  · cases depth with
    | zero => exact ⟨fun hRead => absurd hRead (readAs_zero_ne_ok h (Or.inl hBracket)),
        fun ⟨_, _, hDepth, _⟩ => nomatch hDepth⟩
    | succ deeper =>
      rw [readAs_bracket h hBracket, map_eq_ok]
      constructor
      · rintro ⟨⟨found, last⟩, hRead, hEq⟩
        cases hEq
        exact ⟨hBracket, deeper, rfl, hRead⟩
      · rintro ⟨-, _, hDepth, hRead⟩
        cases hDepth
        exact ⟨_, hRead, rfl⟩
  · -- only an opening bracket begins an array
    refine ⟨fun hRead => ?_, fun hRead => absurd hRead.1 hBracket⟩
    obtain ⟨b, hPeek, hBegins⟩ := beginsWith_of_readAs h hRead
    exact absurd (hBegins ▸ hPeek) hBracket

/-- An object is read member by member. -/
theorem readAs_eq_object (h : role ≠ .unused) {members : List (String × Json)} :
    readAs depth role c = .ok (.object members, behind) ↔
      c.skipBlanks.peek = some (byte '\x7b') ∧ ∃ deeper, depth = deeper + 1 ∧
        readMembersBy (fun key => readAs deeper (role.member key)) (c.skipBlanks.rest.length + 1)
          true c.skipBlanks.advance = .ok (members, behind) := by
  by_cases hBrace : c.skipBlanks.peek = some (byte '\x7b')
  · -- a brace needs one level
    cases depth with
    | zero => exact ⟨fun hRead => absurd hRead (readAs_zero_ne_ok h (Or.inr hBrace)),
        fun ⟨_, _, hDepth, _⟩ => nomatch hDepth⟩
    | succ deeper =>
      rw [readAs_brace h hBrace, map_eq_ok]
      constructor
      · rintro ⟨⟨found, last⟩, hRead, hEq⟩
        cases hEq
        exact ⟨hBrace, deeper, rfl, hRead⟩
      · rintro ⟨-, _, hDepth, hRead⟩
        cases hDepth
        exact ⟨_, hRead, rfl⟩
  · refine ⟨fun hRead => ?_, fun hRead => absurd hRead.1 hBrace⟩
    obtain ⟨b, hPeek, hBegins⟩ := beginsWith_of_readAs h hRead
    exact absurd (hBegins ▸ hPeek) hBrace

/-- A value that is looked at as a whole is read like any other. -/
theorem readAs_plain (depth : Nat) : readAs depth .plain = Json.readValue depth := by
  have hUsed : Role.plain ≠ .unused := nofun
  induction depth using Nat.strongRecOn with
  | ind depth ih =>
    funext c
    -- inside of a plain value every item and every member is plain again
    by_cases hBracket : c.skipBlanks.peek = some (byte '[')
    · cases depth with
      | zero =>
        rw [readAs.eq_def, Json.readValue.eq_def]
        simp only [hBracket]
        rfl
      | succ deeper =>
        have hInner : (fun position => readAs deeper (Role.plain.item position)) =
            fun _ => Json.readValue deeper :=
          funext fun _ => ih deeper (Nat.lt_succ_self _)
        rw [readAs_bracket hUsed hBracket, readValue_of_bracket hBracket, hInner, readItemsBy_const]
        rfl
    · by_cases hBrace : c.skipBlanks.peek = some (byte '\x7b')
      · cases depth with
        | zero =>
          rw [readAs.eq_def, Json.readValue.eq_def]
          simp only [hBrace]
          rfl
        | succ deeper =>
          have hInner : (fun key => readAs deeper (Role.plain.member key)) =
              fun _ => Json.readValue deeper :=
            funext fun _ => ih deeper (Nat.lt_succ_self _)
          rw [readAs_brace hUsed hBrace, readValue_of_brace hBrace, hInner, readMembersBy_const]
      · rw [readAs_leaf hUsed hBracket hBrace, readValue_skipBlanks]

/-- Nor do blanks in front of a value in its role, unless it is unused. -/
theorem readAs_skipBlanks (h : role ≠ .unused) :
    readAs depth role c.skipBlanks = readAs depth role c := by
  rw [readAs.eq_def, readAs.eq_def depth role c]
  dsimp only
  rw [if_neg h, if_neg h, Json.Cursor.skipBlanks_skipBlanks]

end Values

end JsonStencil.Document
