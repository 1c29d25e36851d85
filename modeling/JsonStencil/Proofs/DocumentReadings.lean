import JsonStencil.Proofs.ReadSchemas
import JsonStencil.Proofs.Roles
import Mathlib.Data.List.Forall2

/-!
# Documents of texts and of values

A document is read from text keyword by keyword, and it is made of a JSON value
keyword by keyword. Both ways give the same: what is read from text is what is
made of the value that the text stands for, where the reader passes over
nothing but null. The bounds on the two sides differ. A reader of text counts
the bytes that are left and the levels of nesting, whereas a value is taken
apart as far as it goes; so either both sides stay within the bounds or
neither does.

Main definitions:

* `Document.Agrees` — reading that is reading a value and checking it.
* `Document.Within` — the same one level further in, where nothing may be
  nested at depth 0.

Main results:

* `readKeyword_agrees` — the value of one keyword.
* `readKeywords_eq_ok` / `readPositions_eq_ok` — the keywords of an object and
  of an array.
* `readDocument_agrees` — documents are read as values and then checked.
-/

namespace JsonStencil.Document

open Json (Cursor byte)

/-! ## Reading and checking -/

/-- Reading something is reading a value and checking it. -/
def Agrees {α : Type} (reader : Cursor → Except Fault (α × Cursor))
    (raw : Cursor → Except Json.Fault (Json × Cursor)) (check : Json → Except Fault α) : Prop :=
  ∀ (c behind : Cursor) (a : α), reader c = .ok (a, behind) ↔
    ∃ value, raw c = .ok (value, behind) ∧ check value = .ok a

/-- Strings are read as values and then found to be strings. -/
theorem readString_agrees {depth : Nat} : Agrees readString (Json.readValue depth) stringOf := by
  intro c behind s
  unfold readString
  dsimp only
  split
  · next hQuote =>
    rw [readValue_of_quote hQuote, lift, mapError_eq_ok]
    constructor
    · intro h
      exact ⟨.string s, by rw [h]; rfl, rfl⟩
    · rintro ⟨value, hRead, hCheck⟩
      obtain ⟨read, hFound, hEq⟩ := map_inv hRead
      cases hEq
      cases hCheck
      exact hFound
  · next hQuote =>
    -- whatever else may be read is no string
    refine ⟨fun h => absurd h misshapen_ne_ok, ?_⟩
    rintro ⟨value, hRead, hCheck⟩
    obtain ⟨b, hPeek, hBegins⟩ := beginsWith_of_readValue hRead
    cases value with
    | string found => exact absurd (hBegins ▸ hPeek) hQuote
    | _ => cases hCheck

section Loops

variable {α : Type} {reader : Cursor → Except Fault (α × Cursor)}
  {raw : Cursor → Except Json.Fault (Json × Cursor)} {check : Json → Except Fault α}
  {fuel : Nat} {c behind : Cursor}

/-- Items end at the bracket, or there is one more and then the others. -/
theorem readItems_succ {position : Nat} {items : List α} :
    readItems reader (fuel + 1) position c = .ok (items, behind) ↔
      (∃ between, Json.moreItems (position == 0) c = .ok (false, between) ∧ items = [] ∧
        between.advance = behind) ∨
      ∃ between after first others, Json.moreItems (position == 0) c = .ok (true, between) ∧
        reader between = .ok (first, after) ∧
        readItems reader fuel (position + 1) after = .ok (others, behind) ∧
        items = first :: others := by
  rw [readItems, bind_eq_ok]
  -- the loop stops at the bracket, or it reads one item and goes on
  constructor
  · rintro ⟨⟨more, between⟩, hMore, hRest⟩
    cases more with
    | false =>
      cases hRest
      exact Or.inl ⟨between, mapError_inv hMore, rfl, rfl⟩
    | true =>
      obtain ⟨⟨first, after⟩, hFirst, hRest⟩ := bind_inv hRest
      obtain ⟨⟨others, last⟩, hOthers, hEnd⟩ := bind_inv hRest
      cases hEnd
      exact Or.inr ⟨between, after, first, others, mapError_inv hMore, mapError_inv hFirst,
        hOthers, rfl⟩
  · rintro (⟨between, hMore, rfl, rfl⟩ |
      ⟨between, after, first, others, hMore, hFirst, hOthers, rfl⟩)
    · exact ⟨_, mapError_eq_ok.mpr hMore, rfl⟩
    · exact ⟨_, mapError_eq_ok.mpr hMore, bind_eq_ok.mpr ⟨_, mapError_eq_ok.mpr hFirst,
        bind_eq_ok.mpr ⟨_, hOthers, rfl⟩⟩⟩

/-- Members end at the brace, or there is one more and then the others. -/
theorem readMembers_succ {first : Bool} {members : List (String × α)} :
    readMembers reader (fuel + 1) first c = .ok (members, behind) ↔
      (Json.readKey? first c = .ok (none, behind) ∧ members = []) ∨
      ∃ key between colon after item others, Json.readKey? first c = .ok (some key, between) ∧
        Json.readColon between = .ok ((), colon) ∧ reader colon = .ok (item, after) ∧
        readMembers reader fuel false after = .ok (others, behind) ∧
        members = (key, item) :: others := by
  rw [readMembers, bind_eq_ok]
  -- the loop stops at the brace, or it reads one member and goes on
  constructor
  · rintro ⟨⟨key?, between⟩, hKey, hRest⟩
    cases key? with
    | none =>
      cases hRest
      exact Or.inl ⟨mapError_inv hKey, rfl⟩
    | some key =>
      obtain ⟨⟨_, colon⟩, hColon, hRest⟩ := bind_inv hRest
      obtain ⟨⟨item, after⟩, hItem, hRest⟩ := bind_inv hRest
      obtain ⟨⟨others, last⟩, hOthers, hEnd⟩ := bind_inv hRest
      cases hEnd
      exact Or.inr ⟨key, between, colon, after, item, others, mapError_inv hKey,
        mapError_inv hColon, mapError_inv hItem, hOthers, rfl⟩
  · rintro (⟨hKey, rfl⟩ |
      ⟨key, between, colon, after, item, others, hKey, hColon, hItem, hOthers, rfl⟩)
    · exact ⟨_, mapError_eq_ok.mpr hKey, rfl⟩
    · exact ⟨_, mapError_eq_ok.mpr hKey, bind_eq_ok.mpr ⟨_, mapError_eq_ok.mpr hColon,
        bind_eq_ok.mpr ⟨_, mapError_eq_ok.mpr hItem, bind_eq_ok.mpr ⟨_, hOthers, rfl⟩⟩⟩⟩

/-- Items agree if each of them does. -/
theorem readItems_agrees (h : Agrees reader raw check) {position : Nat} {items : List α} :
    readItems reader fuel position c = .ok (items, behind) ↔
      ∃ values, readItemsBy (fun _ => raw) fuel position c = .ok (values, behind) ∧
        List.Forall₂ (fun value item => check value = .ok item) values items := by
  -- both loops stand at the same byte after every item, so they end together
  induction fuel generalizing position c items with
  | zero => exact ⟨nofun, fun ⟨_, hRead, _⟩ => nomatch hRead⟩
  | succ fuel ih =>
    simp only [readItems_succ, readItemsBy_succ]
    constructor
    · rintro (⟨between, hMore, rfl, hBehind⟩ |
        ⟨between, after, first, others, hMore, hFirst, hOthers, rfl⟩)
      · exact ⟨[], Or.inl ⟨between, hMore, rfl, hBehind⟩, .nil⟩
      · obtain ⟨value, hValue, hCheck⟩ := (h _ _ _).mp hFirst
        obtain ⟨values, hValues, hChecks⟩ := ih.mp hOthers
        exact ⟨value :: values, Or.inr ⟨between, after, value, values, hMore, hValue, hValues, rfl⟩,
          .cons hCheck hChecks⟩
    · rintro ⟨values, ⟨between, hMore, rfl, hBehind⟩ |
        ⟨between, after, value, others, hMore, hValue, hOthers, rfl⟩, hChecks⟩
      · cases hChecks
        exact Or.inl ⟨between, hMore, rfl, hBehind⟩
      · cases hChecks with
        | cons hCheck hOthersCheck =>
        exact Or.inr ⟨between, after, _, _, hMore, (h _ _ _).mpr ⟨value, hValue, hCheck⟩,
          ih.mpr ⟨others, hOthers, hOthersCheck⟩, rfl⟩

/-- So do members, whose keys are the same. -/
theorem readMembers_agrees (h : Agrees reader raw check) {first : Bool}
    {members : List (String × α)} :
    readMembers reader fuel first c = .ok (members, behind) ↔
      ∃ values, readMembersBy (fun _ => raw) fuel first c = .ok (values, behind) ∧
        List.Forall₂ (fun value member => value.1 = member.1 ∧ check value.2 = .ok member.2)
          values members := by
  -- the keys are read by the same reader, so both loops stand at the same byte
  induction fuel generalizing first c members with
  | zero => exact ⟨nofun, fun ⟨_, hRead, _⟩ => nomatch hRead⟩
  | succ fuel ih =>
    simp only [readMembers_succ, readMembersBy_succ]
    constructor
    · rintro (⟨hKey, rfl⟩ | ⟨key, between, colon, after, item, others, hKey, hColon, hItem,
        hOthers, rfl⟩)
      · exact ⟨[], Or.inl ⟨hKey, rfl⟩, .nil⟩
      · -- what the reader accepts is a value that passes the check, and the other way round
        obtain ⟨value, hValue, hCheck⟩ := (h _ _ _).mp hItem
        obtain ⟨values, hValues, hChecks⟩ := ih.mp hOthers
        exact ⟨(key, value) :: values,
          Or.inr ⟨key, between, colon, after, value, values, hKey, hColon, hValue, hValues, rfl⟩,
          .cons ⟨rfl, hCheck⟩ hChecks⟩
    · rintro ⟨values, ⟨hKey, rfl⟩ | ⟨key, between, colon, after, value, others, hKey, hColon,
        hValue, hOthers, rfl⟩, hChecks⟩
      · cases hChecks
        exact Or.inl ⟨hKey, rfl⟩
      · cases hChecks with
        | @cons _ member _ _ hCheck hOthersCheck =>
        obtain ⟨_, item⟩ := member
        obtain ⟨rfl, hCheck⟩ := hCheck
        exact Or.inr ⟨key, between, colon, after, item, _, hKey, hColon,
          (h _ _ _).mpr ⟨value, hValue, hCheck⟩, ih.mpr ⟨others, hOthers, hOthersCheck⟩, rfl⟩

end Loops

/-! ## Lists of checks -/

/-- Strings are found one by one, wherever they are counted from. -/
theorem stringsFrom_eq_ok {position : Nat} {values : List Json} {names : List String} :
    stringsFrom position values = .ok names ↔
      List.Forall₂ (fun value name => stringOf value = .ok name) values names := by
  induction values generalizing position names with
  | nil => simp [stringsFrom, eq_comm]
  | cons value rest ih =>
    rw [stringsFrom, bind_eq_ok]
    simp only [inside, mapError_eq_ok, bind_eq_ok, ih, Except.ok.injEq, List.forall₂_cons_left_iff]
    grind

/-- Documents are made one by one. -/
theorem documentsFrom_eq_ok {position : Nat} {values : List Json} {documents : List Document} :
    documentsFrom position values = .ok documents ↔
      List.Forall₂ (fun value d => ofJson value = .ok d) values documents := by
  induction values generalizing position documents with
  | nil => simp [documentsFrom, eq_comm]
  | cons value rest ih =>
    rw [documentsFrom, bind_eq_ok]
    simp only [inside, mapError_eq_ok, bind_eq_ok, ih, Except.ok.injEq, List.forall₂_cons_left_iff]
    grind

/-- So are those of members, under the same keys. -/
theorem pairsOf_eq_ok {members : List (String × Json)} {documents : List (String × Document)} :
    pairsOf members = .ok documents ↔ List.Forall₂
      (fun member d => member.1 = d.1 ∧ ofJson member.2 = .ok d.2) members documents := by
  induction members generalizing documents with
  | nil => simp [pairsOf, eq_comm]
  | cons member rest ih =>
    obtain ⟨key, value⟩ := member
    rw [pairsOf, bind_eq_ok]
    simp only [inside, mapError_eq_ok, bind_eq_ok, ih, Except.ok.injEq, List.forall₂_cons_left_iff]
    grind

/-! ## Arrays and objects -/

/-- The reader of what stands one level further in than a value of some depth.
At depth 0 there is none. -/
inductive Within {α : Type} (role : Role) (check : Json → Except Fault α) :
    Nat → Option (Cursor → Except Fault (α × Cursor)) → Prop where
  | none : Within role check 0 none
  | some {deeper : Nat} {reader : Cursor → Except Fault (α × Cursor)}
      (agrees : Agrees reader (readAs deeper role) check) :
      Within role check (deeper + 1) (some reader)

section Inside

variable {α : Type}

/-- An array whose items are checked. -/
def arrayOf (checkAll : List Json → Except Fault (List α)) : Json → Except Fault (List α)
  | .array items => checkAll items
  | other => wrongShape other .sequence

/-- An object whose members are checked. -/
def objectOf (checkAll : List (String × Json) → Except Fault (List (String × α))) :
    Json → Except Fault (List (String × α))
  | .object members => (checkAll members).map Fields.ofPairs
  | other => wrongShape other .map

variable {check : Json → Except Fault α} {depth : Nat}
  {reader : Option (Cursor → Except Fault (α × Cursor))} {role inner : Role}

/-- Arrays agree whose items do. -/
theorem readArray_agrees (h : Within inner check depth reader) (hUsed : role ≠ .unused)
    (hItem : ∀ position, role.item position = inner)
    (hSteps : ∀ c, role.steps c = c.rest.length + 1)
    {checkAll : List Json → Except Fault (List α)}
    (hAll : ∀ values items, checkAll values = .ok items ↔
      List.Forall₂ (fun value item => check value = .ok item) values items) :
    Agrees (readArray reader) (readAs depth role) (arrayOf checkAll) := by
  intro c behind items
  unfold readArray
  dsimp only
  split
  · next hBracket =>
    cases h with
    | none =>
      -- at depth 0 neither side goes past the bracket
      refine ⟨fun h => absurd h failNext_ne_ok, ?_⟩
      rintro ⟨value, hRead, -⟩
      exact absurd hRead (readAs_zero_ne_ok hUsed (Or.inl hBracket))
    | some agrees =>
      rw [readItems_agrees agrees]
      constructor
      · rintro ⟨values, hRead, hChecks⟩
        refine ⟨.array values, (readAs_eq_array hUsed).mpr ⟨hBracket, _, rfl, ?_⟩,
          (hAll _ _).mpr hChecks⟩
        simpa only [hItem, hSteps] using hRead
      · rintro ⟨value, hRead, hCheck⟩
        -- what stands behind a bracket is read as an array and nothing else
        cases value with
        | array values =>
          obtain ⟨-, _, hDepth, hRead⟩ := (readAs_eq_array hUsed).mp hRead
          cases hDepth
          simp only [hItem, hSteps] at hRead
          exact ⟨values, hRead, (hAll _ _).mp hCheck⟩
        | _ => cases hCheck
  · next hBracket =>
    refine ⟨fun h => absurd h misshapen_ne_ok, ?_⟩
    rintro ⟨value, hRead, hCheck⟩
    cases value with
    | array values => exact absurd ((readAs_eq_array hUsed).mp hRead).1 hBracket
    | _ => cases hCheck

/-- So do objects whose members do. -/
theorem readMap_agrees (h : Within inner check depth reader) (hUsed : role ≠ .unused)
    (hMember : ∀ key, role.member key = inner)
    {checkAll : List (String × Json) → Except Fault (List (String × α))}
    (hAll : ∀ values members, checkAll values = .ok members ↔ List.Forall₂
      (fun value member => value.1 = member.1 ∧ check value.2 = .ok member.2) values members) :
    Agrees (readMap reader) (readAs depth role) (objectOf checkAll) := by
  intro c behind fields
  unfold readMap
  dsimp only
  split
  · next hBrace =>
    cases h with
    -- at depth 0 neither side goes past the brace
    | none =>
      refine ⟨fun h => absurd h failNext_ne_ok, ?_⟩
      rintro ⟨value, hRead, -⟩
      exact absurd hRead (readAs_zero_ne_ok hUsed (Or.inr hBrace))
    | some agrees =>
      rw [bind_eq_ok]
      constructor
      · rintro ⟨⟨members, last⟩, hRead, hEnd⟩
        cases hEnd
        obtain ⟨values, hValues, hChecks⟩ := (readMembers_agrees agrees).mp hRead
        refine ⟨.object values, (readAs_eq_object hUsed).mpr ⟨hBrace, _, rfl, ?_⟩,
          map_eq_ok.mpr ⟨members, (hAll _ _).mpr hChecks, rfl⟩⟩
        simpa only [hMember] using hValues
      · rintro ⟨value, hRead, hCheck⟩
        cases value with
        | object values =>
          obtain ⟨-, _, hDepth, hRead⟩ := (readAs_eq_object hUsed).mp hRead
          cases hDepth
          obtain ⟨members, hChecks, rfl⟩ := map_inv hCheck
          simp only [hMember] at hRead
          exact ⟨(members, behind),
            (readMembers_agrees agrees).mpr ⟨values, hRead, (hAll _ _).mp hChecks⟩, rfl⟩
        | _ => cases hCheck
  · next hBrace =>
    refine ⟨fun h => absurd h misshapen_ne_ok, ?_⟩
    rintro ⟨value, hRead, hCheck⟩
    cases value with
    | object values => exact absurd ((readAs_eq_object hUsed).mp hRead).1 hBrace
    | _ => cases hCheck

end Inside

/-! ## Keywords -/

/-- What has been read is worked on. -/
theorem Agrees.map {α β : Type} {reader : Cursor → Except Fault (α × Cursor)}
    {raw : Cursor → Except Json.Fault (Json × Cursor)} {check : Json → Except Fault α}
    (h : Agrees reader raw check) (f : α → β) :
    Agrees (fun c => reader c >>= fun read => .ok (f read.1, read.2)) raw
      (fun value => check value >>= fun a => .ok (f a)) := by
  intro c behind b
  -- the function is applied to what is read, and to what has been checked
  rw [bind_eq_ok]
  constructor
  · rintro ⟨⟨a, last⟩, hRead, hEnd⟩
    cases hEnd
    obtain ⟨value, hValue, hCheck⟩ := (h _ _ _).mp hRead
    exact ⟨value, hValue, bind_eq_ok.mpr ⟨a, hCheck, rfl⟩⟩
  · rintro ⟨value, hValue, hMade⟩
    obtain ⟨a, hCheck, hEnd⟩ := bind_inv hMade
    cases hEnd
    exact ⟨(a, behind), (h _ _ _).mpr ⟨value, hValue, hCheck⟩, rfl⟩

section Keywords

variable {n : Nesting} {settle : Cursor → Json.Place} {keyword : Keyword} {d d' : Document}
  {c behind : Cursor}

/-- A value that is read as a whole is taken in behind it. -/
theorem readChecked_agrees :
    Agrees (readChecked n settle d keyword) (readAs n.depth .plain) (withKeyword d keyword) := by
  intro c behind d'
  unfold readChecked
  rw [bind_eq_ok, readAs_plain]
  constructor
  · rintro ⟨⟨value, last⟩, hValue, hRest⟩
    dsimp only at hRest
    -- the value is read as any other one, and then the check decides
    split at hRest
    · next hTaken =>
      cases hRest
      exact ⟨value, mapError_inv hValue, hTaken⟩
    · cases hRest
  · rintro ⟨value, hValue, hTaken⟩
    refine ⟨(value, behind), mapError_eq_ok.mpr hValue, ?_⟩
    dsimp only
    rw [hTaken]

/-- How documents are read inside the value of a keyword. -/
def Nesting.Agrees (n : Nesting) : Prop := Within .document ofJson n.depth n.document

/-- A list of documents is an array of them. -/
theorem readDocuments_agrees (hn : n.Agrees) : Agrees (readArray n.document)
    (readAs n.depth .documents) (arrayOf (documentsFrom 0)) :=
  readArray_agrees hn (by decide : Role.documents ≠ .unused) (fun _ => rfl) (fun _ => rfl)
    fun _ _ => documentsFrom_eq_ok

/-- Documents under keys are an object of them. -/
theorem readFields_agrees (hn : n.Agrees) : Agrees (readMap n.document)
    (readAs n.depth .fields) (objectOf pairsOf) :=
  readMap_agrees hn (by decide : Role.fields ≠ .unused) (fun _ => rfl) fun _ _ => pairsOf_eq_ok

/-- A name is a string. -/
theorem readName_agrees {depth : Nat} :
    Agrees readString (readAs depth .plain) stringOf := by
  rw [readAs_plain]
  exact readString_agrees

/-- A list of names is an array of strings. -/
theorem readNames_agrees {depth : Nat} :
    Agrees (readArray (if depth = 0 then none else some readString))
      (readAs depth .plain) (arrayOf (stringsFrom 0)) := by
  refine readArray_agrees ?_ (by decide : Role.plain ≠ .unused) (fun _ => rfl) (fun _ => rfl)
    fun _ _ => stringsFrom_eq_ok
  cases depth with
  | zero => exact .none
  | succ deeper => exact .some readName_agrees

/-- Null leaves the document as it is. -/
theorem readNull_agrees {depth : Nat} {role : Role} (hUsed : role ≠ .unused)
    (hNull : c.skipBlanks.peek = some (byte 'n')) :
    lift (Json.readLiteral "ull" d c.skipBlanks) = .ok (d', behind) ↔
      ∃ value, readAs depth role c = .ok (value, behind) ∧
        withKeyword d keyword value = .ok d' := by
  -- a null is a leaf, which is read alike in every role
  have hBracket : c.skipBlanks.peek ≠ some (byte '[') := by
    rw [hNull]
    decide
  have hBrace : c.skipBlanks.peek ≠ some (byte '\x7b') := by
    rw [hNull]
    decide
  rw [readAs_leaf hUsed hBracket hBrace, readValue_skipBlanks, readValue_of_null hNull, lift,
    mapError_eq_ok, Json.readLiteral, Json.readLiteral, map_eq_ok]
  simp only [map_eq_ok]
  constructor
  · rintro ⟨passed, hPassed, hEnd⟩
    cases hEnd
    exact ⟨.null, ⟨passed, hPassed, rfl⟩, rfl⟩
  · rintro ⟨value, ⟨passed, hPassed, hEnd⟩, hTaken⟩
    cases hEnd
    cases hTaken
    exact ⟨passed, hPassed, rfl⟩

/-- The value of a keyword is read as a JSON value and then taken in. -/
theorem readKeyword_agrees (hn : n.Agrees) :
    Agrees (readKeyword n settle d keyword) (readAs n.depth (Role.ofKeyword keyword))
      (withKeyword d keyword) := by
  intro c behind d'
  have hUsed : Role.ofKeyword keyword ≠ .unused := by cases keyword <;> nofun
  unfold readKeyword
  dsimp only
  split
  · next hNull => exact readNull_agrees hUsed hNull
  next hNull =>
  -- whatever else is read is not null, so that only this need be known of the check
  have hTaken {reader : Cursor → Except Fault (Document × Cursor)}
      {check : Json → Except Fault Document}
      (hAgrees : Agrees reader (readAs n.depth (Role.ofKeyword keyword)) check)
      (hCheck : ∀ value, value ≠ .null → withKeyword d keyword value = check value) :
      reader c.skipBlanks = .ok (d', behind) ↔
        ∃ value, readAs n.depth (Role.ofKeyword keyword) c = .ok (value, behind) ∧
          withKeyword d keyword value = .ok d' := by
    rw [hAgrees, readAs_skipBlanks hUsed]
    refine exists_congr fun value => and_congr_right fun hRead => ?_
    obtain ⟨b, hPeek, hBegins⟩ := beginsWith_of_readAs hUsed hRead
    rw [hCheck value]
    rintro rfl
    exact hNull (hBegins ▸ hPeek)
  -- each keyword has its own check, which is the reading of its value
  cases keyword with
  | type | additionalProperties | items | default =>
    exact hTaken readChecked_agrees fun _ _ => rfl
  | properties =>
    -- what is read here are documents under keys
    refine hTaken (Agrees.map (readFields_agrees hn)
      fun fields => { d with properties := some fields }) fun value h => ?_
    cases value with
    | null => contradiction
    | object members =>
      simp only [withKeyword, objectOf]
      cases pairsOf members <;> rfl
    | _ => rfl
  | patternProperties =>
    refine hTaken (Agrees.map (readFields_agrees hn)
      fun patterns => { d with patternProperties := some patterns }) fun value h => ?_
    cases value with
    | null => contradiction
    | object members =>
      simp only [withKeyword, objectOf]
      cases pairsOf members <;> rfl
    | _ => rfl
  | required =>
    refine hTaken (Agrees.map readNames_agrees fun names => { d with required := some names })
      fun value h => ?_
    cases value <;> first | contradiction | rfl
  | prefixItems =>
    refine hTaken (Agrees.map (readDocuments_agrees hn)
      fun items => { d with prefixItems := some items }) fun value h => ?_
    cases value <;> first | contradiction | rfl
  | anyOf =>
    refine hTaken (Agrees.map (readDocuments_agrees hn)
      fun members => { d with anyOf := some members }) fun value h => ?_
    cases value <;> first | contradiction | rfl
  | allOf =>
    refine hTaken (Agrees.map (readDocuments_agrees hn)
      fun members => { d with allOf := some members }) fun value h => ?_
    cases value <;> first | contradiction | rfl
  | format =>
    refine hTaken (Agrees.map readName_agrees fun format => { d with format := some format })
      fun value h => ?_
    cases value <;> first | contradiction | rfl

/-! ## Objects and arrays of keywords -/

/-- A key without a meaning is passed over. -/
theorem ofMembers_unknown {seen : List Keyword} {key : String} {value : Json}
    {members : List (String × Json)} (h : Keyword.ofName? key = none) :
    ofMembers seen d ((key, value) :: members) = ofMembers seen d members := by
  rw [ofMembers, h]

/-- A keyword is taken in unless it has been met before. -/
theorem ofMembers_known {seen : List Keyword} {key : String} {value : Json}
    {members : List (String × Json)} (h : Keyword.ofName? key = some keyword) :
    ofMembers seen d ((key, value) :: members) = .ok d' ↔ keyword ∉ seen ∧
      ∃ taken, withKeyword d keyword value = .ok taken ∧
        ofMembers (keyword :: seen) taken members = .ok d' := by
  rw [ofMembers, h]
  dsimp only
  split
  · next hSeen => exact ⟨nofun, fun hTaken => absurd hSeen hTaken.1⟩
  · next hSeen => simp only [bind_eq_ok, inside, mapError_eq_ok, hSeen, not_false_eq_true, true_and]

/-- The value of a key without a meaning is unused. -/
theorem Role.member_unknown {key : String} (h : Keyword.ofName? key = none) :
    Role.document.member key = .unused := by
  rw [Role.member, h]
  rfl

/-- The value of a keyword has the part that the keyword gives it. -/
theorem Role.member_known {key : String} (h : Keyword.ofName? key = some keyword) :
    Role.document.member key = Role.ofKeyword keyword := by
  rw [Role.member, h]
  rfl

/-- The members of an object are read as JSON values, without those that have
no meaning, and then taken in. -/
theorem readKeywords_eq_ok (hn : n.Agrees) {fuel : Nat} {seen : List Keyword} {first : Bool} :
    readKeywords n fuel seen first d c = .ok (d', behind) ↔
      ∃ members, readMembersBy (fun key => readAs n.depth (Role.document.member key)) fuel first c =
        .ok (members, behind) ∧ ofMembers seen d members = .ok d' := by
  -- on the members; what has been met and taken in so far is general
  induction fuel generalizing seen first d c with
  | zero => exact ⟨nofun, fun ⟨_, hRead, _⟩ => nomatch hRead⟩
  | succ fuel ih =>
    simp only [readMembersBy_succ]
    rw [readKeywords, bind_eq_ok]
    constructor
    · rintro ⟨⟨key?, between⟩, hKey, hRest⟩
      have hKey := mapError_inv hKey
      cases key? with
      | none =>
        cases hRest
        exact ⟨[], Or.inl ⟨hKey, rfl⟩, by rw [ofMembers]⟩
      | some key =>
        dsimp only at hRest
        split at hRest
        · -- a key without a meaning: its value is passed over, and null is read
          next hName =>
          obtain ⟨⟨_, colon⟩, hColon, hRest⟩ := bind_inv hRest
          obtain ⟨⟨_, after⟩, hSkip, hRest⟩ := bind_inv hRest
          obtain ⟨members, hMembers, hTaken⟩ := ih.mp hRest
          refine ⟨(key, .null) :: members, Or.inr ⟨key, between, colon, after, .null, members, hKey,
            mapError_inv hColon, ?_, hMembers, rfl⟩, (ofMembers_unknown hName).trans hTaken⟩
          rw [Role.member_unknown hName, readAs_unused, map_eq_ok]
          exact ⟨_, mapError_inv (mapError_inv hSkip), rfl⟩
        · -- a keyword: if it had been met before, either side would refuse it
          next keyword hName =>
          split at hRest
          · cases hRest
          next hSeen =>
          obtain ⟨⟨_, colon⟩, hColon, hRest⟩ := bind_inv hRest
          obtain ⟨⟨taken, after⟩, hRead, hRest⟩ := bind_inv hRest
          obtain ⟨value, hValue, hCheck⟩ := (readKeyword_agrees hn _ _ _).mp (mapError_inv hRead)
          obtain ⟨members, hMembers, hTaken⟩ := ih.mp hRest
          refine ⟨(key, value) :: members, Or.inr ⟨key, between, colon, after, value, members,
            hKey, mapError_inv hColon, ?_, hMembers, rfl⟩,
            (ofMembers_known hName).mpr ⟨hSeen, taken, hCheck, hTaken⟩⟩
          rw [Role.member_known hName]
          exact hValue
    · rintro ⟨members, ⟨hKey, rfl⟩ | ⟨key, between, colon, after, value, others, hKey, hColon,
        hValue, hOthers, rfl⟩, hTaken⟩
      · rw [ofMembers] at hTaken
        cases hTaken
        exact ⟨_, mapError_eq_ok.mpr hKey, rfl⟩
      · refine ⟨_, mapError_eq_ok.mpr hKey, ?_⟩
        dsimp only
        -- the same two cases from the side of the value
        cases hName : Keyword.ofName? key with
        | none =>
          rw [Role.member_unknown hName, readAs_unused] at hValue
          obtain ⟨passed, hSkip, hEq⟩ := map_inv hValue
          cases hEq
          rw [ofMembers_unknown hName] at hTaken
          exact bind_eq_ok.mpr ⟨_, mapError_eq_ok.mpr hColon, bind_eq_ok.mpr ⟨_,
            mapError_eq_ok.mpr (mapError_eq_ok.mpr hSkip), ih.mpr ⟨others, hOthers, hTaken⟩⟩⟩
        | some keyword =>
          rw [Role.member_known hName] at hValue
          obtain ⟨hSeen, taken, hCheck, hTaken⟩ := (ofMembers_known hName).mp hTaken
          dsimp only
          rw [if_neg hSeen]
          exact bind_eq_ok.mpr ⟨_, mapError_eq_ok.mpr hColon, bind_eq_ok.mpr ⟨_,
            mapError_eq_ok.mpr ((readKeyword_agrees hn _ _ _).mpr ⟨value, hValue, hCheck⟩),
            ih.mpr ⟨others, hOthers, hTaken⟩⟩⟩

/-- No other item follows where the closing bracket stands. -/
theorem moreItems_end {first : Bool} {between : Cursor} :
    Json.moreItems first c = .ok (false, between) ↔
      c.skipBlanks.peek = some (byte ']') ∧ c.skipBlanks = between := by
  constructor
  · intro h
    obtain ⟨b, hPeek, ⟨-, rfl, rfl⟩ | ⟨hMore, -⟩⟩ := Json.moreItems_inv h
    · exact ⟨hPeek, rfl⟩
    · exact nomatch hMore
  · rintro ⟨hPeek, rfl⟩
    rw [Json.moreItems.eq_def]
    simp only [hPeek, if_true]

/-- An array ends at its bracket, behind blanks at most. -/
theorem readArrayEnd_eq_ok {passed : Unit} :
    readArrayEnd c = .ok (passed, behind) ↔
      c.skipBlanks.peek = some (byte ']') ∧ c.skipBlanks.advance = behind := by
  constructor
  · intro h
    unfold readArrayEnd at h
    dsimp only at h
    split at h
    · cases h
    next b hPeek =>
    -- any other byte is a fault, a comma with a fault of its own
    split at h
    · next hClose =>
      cases h
      exact ⟨hPeek.trans (congrArg some hClose), rfl⟩
    split at h
    · split at h <;> cases h
    · cases h
  · rintro ⟨hPeek, rfl⟩
    rw [readArrayEnd.eq_def]
    simp only [hPeek, if_true]

/-- The first value belongs to the first keyword. -/
theorem ofValues_cons {length position : Nat} {others : List Keyword} {value : Json}
    {values : List Json} :
    ofValues length (keyword :: others) d position (value :: values) = .ok d' ↔
      ∃ taken, withKeyword d keyword value = .ok taken ∧
        ofValues length others taken (position + 1) values = .ok d' := by
  rw [ofValues]
  simp only [bind_eq_ok, inside, mapError_eq_ok]

/-- The length is told only where it is wrong. -/
theorem ofValues_anyLength (length length' : Nat) {keywords : List Keyword} {position : Nat}
    {values : List Json} :
    ofValues length keywords d position values = .ok d' ↔
      ofValues length' keywords d position values = .ok d' := by
  -- the length is looked at for the wording of a fault alone
  induction values generalizing keywords position d with
  | nil =>
    rw [ofValues, ofValues]
    split
    · exact Iff.rfl
    · exact ⟨nofun, nofun⟩
  | cons value rest ih =>
    cases keywords with
    | nil =>
      rw [ofValues, ofValues]
      exact ⟨nofun, nofun⟩
    | cons keyword others => simp only [ofValues_cons, ih]

/-- At its position a value has the part of the keyword there. -/
theorem Role.item_keyword {position : Nat} {others : List Keyword}
    (h : Keyword.all.drop position = keyword :: others) :
    Role.document.item position = Role.ofKeyword keyword := by
  have hAt : Keyword.all[position]? = some keyword := by
    rw [← Nat.add_zero position, ← List.getElem?_drop, h]
    rfl
  rw [Role.item, hAt]
  rfl

/-- So are the items of an array that gives the values of all keywords. -/
theorem readPositions_eq_ok (length : Nat) (hn : n.Agrees) {keywords : List Keyword}
    {fuel position : Nat} (hFuel : keywords.length < fuel)
    (hKeywords : Keyword.all.drop position = keywords) :
    readPositions n keywords position d c = .ok (d', behind) ↔
      ∃ values, readItemsBy (fun position => readAs n.depth (Role.document.item position)) fuel
        position c = .ok (values, behind) ∧
        ofValues length keywords d position values = .ok d' := by
  -- on the keywords that are left; one more step is left than there are keywords
  induction keywords generalizing fuel position d c with
  | nil =>
    obtain ⟨fuel, rfl⟩ := Nat.exists_eq_succ_of_ne_zero (Nat.ne_of_gt hFuel)
    simp only [readItemsBy_succ, moreItems_end]
    rw [readPositions, map_eq_ok]
    constructor
    · rintro ⟨⟨passed, last⟩, hEnd, hEq⟩
      cases hEq
      obtain ⟨hPeek, rfl⟩ := readArrayEnd_eq_ok.mp (mapError_inv hEnd)
      exact ⟨[], Or.inl ⟨_, ⟨hPeek, rfl⟩, rfl, rfl⟩, by rw [ofValues]; rfl⟩
    · rintro ⟨values, ⟨between, ⟨hPeek, rfl⟩, rfl, rfl⟩ | ⟨_, _, _, _, -, -, -, rfl⟩, hTaken⟩
      · rw [ofValues] at hTaken
        cases hTaken
        exact ⟨((), _), mapError_eq_ok.mpr (readArrayEnd_eq_ok.mpr ⟨hPeek, rfl⟩), rfl⟩
      · -- one value too many
        rw [ofValues] at hTaken
        cases hTaken
  | cons keyword others ih =>
    obtain ⟨fuel, rfl⟩ := Nat.exists_eq_succ_of_ne_zero (Nat.ne_zero_of_lt hFuel)
    have hOthersFuel : others.length < fuel := Nat.lt_of_succ_lt_succ hFuel
    have hOthersKeywords : Keyword.all.drop (position + 1) = others := by
      rw [← List.tail_drop, hKeywords]
      rfl
    have hItem := Role.item_keyword hKeywords
    simp only [readItemsBy_succ]
    rw [readPositions, bind_eq_ok]
    constructor
    · rintro ⟨⟨more, between⟩, hMore, hRest⟩
      cases more with
      | false => cases hRest
      | true =>
        obtain ⟨⟨taken, after⟩, hRead, hRest⟩ := bind_inv hRest
        obtain ⟨value, hValue, hCheck⟩ := (readKeyword_agrees hn _ _ _).mp (mapError_inv hRead)
        obtain ⟨values, hValues, hTaken⟩ := (ih hOthersFuel hOthersKeywords).mp hRest
        refine ⟨value :: values, Or.inr ⟨between, after, value, values, mapError_inv hMore, ?_,
          hValues, rfl⟩, ofValues_cons.mpr ⟨taken, hCheck, hTaken⟩⟩
        rw [hItem]
        exact hValue
    · rintro ⟨values, ⟨between, -, rfl, -⟩ | ⟨between, after, value, others, hMore, hValue,
        hOthers, rfl⟩, hTaken⟩
      · -- a value is missing
        rw [ofValues] at hTaken
        cases hTaken
      · obtain ⟨taken, hCheck, hTaken⟩ := ofValues_cons.mp hTaken
        rw [hItem] at hValue
        exact ⟨_, mapError_eq_ok.mpr hMore, bind_eq_ok.mpr ⟨_,
          mapError_eq_ok.mpr ((readKeyword_agrees hn _ _ _).mpr ⟨value, hValue, hCheck⟩),
          (ih hOthersFuel hOthersKeywords).mpr ⟨others, hOthers, hTaken⟩⟩⟩

end Keywords

/-! ## Documents -/

/-- A document is made of an object or of an array. -/
theorem ofJson_eq_ok {value : Json} {d : Document} :
    ofJson value = .ok d ↔
      (∃ members, value = .object members ∧ ofMembers [] {} members = .ok d) ∨
      ∃ values, value = .array values ∧ ofValues values.length Keyword.all {} 0 values = .ok d := by
  cases value <;> simp [ofJson, wrongShape]

/-- A document is read as a JSON value, and then made of it. -/
theorem readDocument_agrees (depth : Nat) :
    Agrees (readDocument depth) (readAs depth .document) ofJson := by
  have hUsed : Role.document ≠ .unused := nofun
  -- documents inside are two levels further in, so the induction is a strong one
  induction depth using Nat.strongRecOn with
  | ind depth ih =>
    intro c behind d
    simp only [ofJson_eq_ok]
    cases depth with
    | zero =>
      -- a document is nested at least once
      rw [readDocument_zero]
      constructor
      · intro h
        split at h
        · exact absurd h failNext_ne_ok
        · exact absurd h misshapen_ne_ok
      · rintro ⟨_, hRead, ⟨members, rfl, -⟩ | ⟨values, rfl, -⟩⟩
        · obtain ⟨-, _, hDepth, -⟩ := (readAs_eq_object hUsed).mp hRead
          exact nomatch hDepth
        · obtain ⟨-, _, hDepth, -⟩ := (readAs_eq_array hUsed).mp hRead
          exact nomatch hDepth
    | succ depth =>
      -- the documents of a keyword have two levels less, one for its array or object
      have hn : (nestingBelow depth).Agrees := by
        cases depth with
        | zero => exact .none
        | succ deeper => exact .some (ih deeper (by omega))
      rw [readDocument_succ]
      -- an object of keywords
      split
      · next hBrace =>
        rw [readKeywords_eq_ok hn]
        constructor
        · rintro ⟨members, hRead, hTaken⟩
          exact ⟨_, (readAs_eq_object hUsed).mpr ⟨hBrace, depth, rfl, hRead⟩,
            Or.inl ⟨members, rfl, hTaken⟩⟩
        · rintro ⟨_, hRead, ⟨members, rfl, hTaken⟩ | ⟨values, rfl, -⟩⟩
          · obtain ⟨-, _, hDepth, hRead⟩ := (readAs_eq_object hUsed).mp hRead
            cases hDepth
            exact ⟨members, hRead, hTaken⟩
          · have hBracket := ((readAs_eq_array hUsed).mp hRead).1
            rw [hBrace] at hBracket
            exact absurd hBracket (by decide)
      next hBrace =>
      -- an array with a value for each keyword in turn
      split
      · next hBracket =>
        have hFuel : Keyword.all.length < Role.document.steps c.skipBlanks := by
          rw [Role.steps]
          omega
        rw [readPositions_eq_ok 0 hn hFuel rfl]
        constructor
        · rintro ⟨values, hRead, hTaken⟩
          exact ⟨_, (readAs_eq_array hUsed).mpr ⟨hBracket, depth, rfl, hRead⟩,
            Or.inr ⟨values, rfl, (ofValues_anyLength 0 _).mp hTaken⟩⟩
        · rintro ⟨_, hRead, ⟨members, rfl, -⟩ | ⟨values, rfl, hTaken⟩⟩
          · exact absurd ((readAs_eq_object hUsed).mp hRead).1 hBrace
          · obtain ⟨-, _, hDepth, hRead⟩ := (readAs_eq_array hUsed).mp hRead
            cases hDepth
            exact ⟨values, hRead, (ofValues_anyLength _ 0).mp hTaken⟩
      · next hBracket =>
        refine ⟨fun h => absurd h misshapen_ne_ok, ?_⟩
        rintro ⟨_, hRead, ⟨members, rfl, -⟩ | ⟨values, rfl, -⟩⟩
        · exact absurd ((readAs_eq_object hUsed).mp hRead).1 hBrace
        · exact absurd ((readAs_eq_array hUsed).mp hRead).1 hBracket

end JsonStencil.Document
