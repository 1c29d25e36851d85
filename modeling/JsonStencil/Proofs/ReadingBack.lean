import JsonStencil.Json.Pointer
import JsonStencil.Proofs.Computations
import JsonStencil.Proofs.Decoding
import JsonStencil.Proofs.LoadedSchemas

/-!
# Reading back values

A value whose numbers are integers of 64 bits is read back from its compact
text, provided that it is nested no deeper than the reader goes; behind the
text of a value inside another one stands a mark, at which the reader stops.
A value that repeats no key is then what the whole text stands for.

What a reader gives is nested no deeper than its bound, repeats no key, and
this is still so for what a pointer selects of it.

Main definitions:

* `Json.IntegersOnly` / `Json.depth` — which numbers a value has, and how
  deeply it is nested.
* `Json.ReadBack` — bytes that a reader takes for a value.
* `Json.IsRead` — what a value is read of, by the byte that it begins with.
* `Json.Readable` — a value that can be read from a whole text.

Main results:

* `readValue_text` — a value is read back from its text.
* `ofText_text` — so it is from the whole text.
* `isRead_of_readValue` — whatever is read is read in one of these ways.
* `readable_of_ofText` / `Readable.point` — what is read, or selected, can be
  read.
-/

namespace JsonStencil.Json

open Text

/-! ## Values -/

/-- An integer that is read as one. -/
def InRange (value : Int) : Prop := -9223372036854775808 ≤ value ∧ value ≤ 18446744073709551615

mutual

/-- Every number is an integer of 64 bits. -/
def IntegersOnly : Json → Prop
  | .number (.integer value) => InRange value
  | .number (.float _) => False
  | .array items => IntegersOnlyInItems items
  | .object members => IntegersOnlyInMembers members
  | _ => True

/-- In every item. -/
def IntegersOnlyInItems : List Json → Prop
  | [] => True
  | item :: rest => IntegersOnly item ∧ IntegersOnlyInItems rest

/-- In every member. -/
def IntegersOnlyInMembers : List (String × Json) → Prop
  | [] => True
  | (_, value) :: rest => IntegersOnly value ∧ IntegersOnlyInMembers rest

end

mutual

/-- How deeply arrays and objects are nested. -/
def depth : Json → Nat
  | .array items => depthOfItems items + 1
  | .object members => depthOfMembers members + 1
  | _ => 0

/-- The greatest depth of an item. -/
def depthOfItems : List Json → Nat
  | [] => 0
  | item :: rest => max (depth item) (depthOfItems rest)

/-- The greatest depth of a member. -/
def depthOfMembers : List (String × Json) → Nat
  | [] => 0
  | (_, value) :: rest => max (depth value) (depthOfMembers rest)

end

/-- The reader gives a value for some bytes, whatever mark stands behind
them. -/
def ReadBack {α : Type} (reader : Cursor → Except Fault (α × Cursor)) (bytes : List UInt8)
    (value : α) : Prop :=
  ∀ rest, Ends rest → ∀ place, ∃ behind, reader ⟨bytes ++ rest, place⟩ = .ok (value, ⟨rest, behind⟩)

section Openings

variable (depth : Nat) (rest : List UInt8) (place : Place)

/-- Behind a quote a string is read. -/
theorem readValue_quote : readValue depth ⟨byte '"' :: rest, place⟩ =
    (readString ⟨rest, place.past (byte '"')⟩).map fun read => (.string read.1, read.2) := by
  unfold readValue
  rfl

/-- Behind a minus sign, the rest of a number. -/
theorem readValue_minus : readValue depth ⟨byte '-' :: rest, place⟩ =
    (readNumber true ⟨rest, place.past (byte '-')⟩).map fun read => (.number read.1, read.2) := by
  unfold readValue
  rfl

/-- Behind a bracket, items with a level less. -/
theorem readValue_bracket : readValue (depth + 1) ⟨byte '[' :: rest, place⟩ =
    (readItems (readValue depth) (rest.length + 2) 0 ⟨rest, place.past (byte '[')⟩).map
      fun read => (.array read.1, read.2) := by
  unfold readValue
  rfl

/-- Behind a brace, members with a level less. -/
theorem readValue_brace : readValue (depth + 1) ⟨byte '\x7b' :: rest, place⟩ =
    (readMembers (readValue depth) (rest.length + 2) true ⟨rest, place.past (byte '\x7b')⟩).map
      fun read => (.object read.1, read.2) := by
  unfold readValue
  rfl

/-- The word for null is read as such. -/
theorem readValue_null : readValue depth ⟨encoded "null".toList ++ rest, place⟩ =
    .ok (.null, Cursor.advanceBy 4 ⟨encoded "null".toList ++ rest, place⟩) := by
  unfold readValue
  rfl

/-- So is the word for true. -/
theorem readValue_true : readValue depth ⟨encoded "true".toList ++ rest, place⟩ =
    .ok (.bool true, Cursor.advanceBy 4 ⟨encoded "true".toList ++ rest, place⟩) := by
  unfold readValue
  rfl

/-- And the word for false. -/
theorem readValue_false : readValue depth ⟨encoded "false".toList ++ rest, place⟩ =
    .ok (.bool false, Cursor.advanceBy 5 ⟨encoded "false".toList ++ rest, place⟩) := by
  unfold readValue
  rfl

end Openings

/-- In front of another byte there are no blanks to pass. -/
theorem skipBlanks_cons {b : UInt8} (h : Cursor.isBlank b = false) (rest : List UInt8)
    (place : Place) : Cursor.skipBlanks ⟨b :: rest, place⟩ = ⟨b :: rest, place⟩ := by
  unfold Cursor.skipBlanks Cursor.skipFrom
  simp only [h, Bool.false_eq_true, if_false]

/-- A digit is no byte that is none. -/
theorem ne_of_isDigit {b : UInt8} (h : Cursor.isDigit b = true) {c : Char}
    (hc : Cursor.isDigit (byte c) = false) : b ≠ byte c := by
  rintro rfl
  rw [h] at hc
  cases hc

/-- A digit is no blank. -/
theorem isBlank_of_isDigit {b : UInt8} (h : Cursor.isDigit b = true) :
    Cursor.isBlank b = false := by
  have hSpace : b ≠ byte ' ' := ne_of_isDigit h (by decide)
  have hLine : b ≠ byte '\n' := ne_of_isDigit h (by decide)
  have hTab : b ≠ byte '\t' := ne_of_isDigit h (by decide)
  have hReturn : b ≠ byte '\r' := ne_of_isDigit h (by decide)
  simp [Cursor.isBlank, hSpace, hLine, hTab, hReturn]

/-- At a digit a number is read. -/
theorem readValue_digit {b : UInt8} (h : Cursor.isDigit b = true) (depth : Nat) (rest : List UInt8)
    (place : Place) : readValue depth ⟨b :: rest, place⟩ =
      (readNumber false ⟨b :: rest, place⟩).map fun read => (.number read.1, read.2) := by
  rw [readValue.eq_def]
  simp only [skipBlanks_cons (isBlank_of_isDigit h)]
  simp only [Cursor.peek, List.head?_cons, h, if_true]
  -- a digit is none of the bytes that the reader looks for first
  rw [if_neg (ne_of_isDigit h (by decide)), if_neg (ne_of_isDigit h (by decide)),
    if_neg (ne_of_isDigit h (by decide)), if_neg (ne_of_isDigit h (by decide)),
    if_neg (ne_of_isDigit h (by decide))]

/-! ## Between brackets -/

/-- The comma in front of an item or a member that is not the first. -/
def mark (first : Bool) : List UInt8 := if first then [] else [byte ',']

/-- A byte that a value may begin with inside an array. -/
def Opens (bytes : List UInt8) : Prop :=
  ∃ b others, bytes = b :: others ∧ Cursor.isBlank b = false ∧ b ≠ byte ']'

/-- Behind its comma an item comes next. -/
theorem moreItems_mark {bytes : List UInt8} (h : Opens bytes) (first : Bool) (place : Place) :
    ∃ behind, moreItems first ⟨mark first ++ bytes, place⟩ = .ok (true, ⟨bytes, behind⟩) := by
  obtain ⟨b, others, rfl, hBlank, hClose⟩ := h
  -- there is a comma in front of every item but the first one
  cases first with
  | true =>
    refine ⟨place, ?_⟩
    simp only [moreItems, mark, if_true, List.nil_append, skipBlanks_cons hBlank, Cursor.peek,
      List.head?_cons, if_neg hClose]
  | false =>
    refine ⟨place.past (byte ','), ?_⟩
    have hComma : Cursor.isBlank (byte ',') = false := by decide
    have hOpen : byte ',' ≠ byte ']' := by decide
    simp only [moreItems, mark, Bool.false_eq_true, if_false, List.singleton_append,
      skipBlanks_cons hComma, Cursor.peek, List.head?_cons, if_neg hOpen, if_true, Cursor.advance,
      skipBlanks_cons hBlank, if_neg hClose]

/-- An item that is read is put in front of those read behind it. -/
theorem readItems_cons {item : Cursor → Except Fault (Json × Cursor)} {value : Json}
    {bytes more : List UInt8} (hOpens : Opens bytes)
    (hItem : ∀ place, ∃ behind, item ⟨bytes ++ more, place⟩ = .ok (value, ⟨more, behind⟩))
    (fuel position : Nat) (place : Place) :
    ∃ behind, readItems item (fuel + 1) position
        ⟨mark (position == 0) ++ (bytes ++ more), place⟩ =
      (readItems item fuel (position + 1) ⟨more, behind⟩).map
        fun read => (value :: read.1, read.2) := by
  -- what an item begins with can be seen whatever follows it
  have hOpensAll : Opens (bytes ++ more) := by
    obtain ⟨b, others, rfl, hFirst⟩ := hOpens
    exact ⟨b, others ++ more, rfl, hFirst⟩
  obtain ⟨between, hMore⟩ := moreItems_mark hOpensAll (position == 0) place
  obtain ⟨behind, hRead⟩ := hItem between
  refine ⟨behind, ?_⟩
  rw [readItems, hMore]
  show (under _ (item ⟨bytes ++ more, between⟩)).bind _ = _
  rw [hRead]
  rfl

/-- The bytes of a key, its colon included. -/
def keyBytes (key : String) : List UInt8 := encoded (escaped key ++ ":").toList

/-- The bytes of a key are a literal and a colon. -/
theorem keyBytes_append (key : String) (more : List UInt8) :
    keyBytes key ++ more =
      byte '"' :: (encoded (key.toList.flatMap escapeChar) ++ byte '"' :: byte ':' :: more) := by
  rw [keyBytes, escaped, enclosed, String.toList_append, String.toList_ofList, encoded_append,
    List.cons_append, encoded_cons, encoded_append]
  simp only [List.append_assoc]
  rfl

/-- Behind its comma a key is read up to its colon. -/
theorem readKey?_mark (first : Bool) (key : String) (more : List UInt8) (place : Place) :
    ∃ behind, readKey? first ⟨mark first ++ (keyBytes key ++ more), place⟩ =
      .ok (some key, ⟨byte ':' :: more, behind⟩) := by
  -- the mark and the opening quote are taken in one go
  have hMore : ∃ behind, moreMembers first ⟨mark first ++ (keyBytes key ++ more), place⟩ =
      .ok (true,
        ⟨encoded (key.toList.flatMap escapeChar) ++ byte '"' :: byte ':' :: more, behind⟩) := by
    rw [keyBytes_append]
    cases first with
    | true => exact ⟨place.past (byte '"'), rfl⟩
    | false => exact ⟨(place.past (byte ',')).past (byte '"'), rfl⟩
  obtain ⟨between, hMore⟩ := hMore
  obtain ⟨behind, hRead⟩ := readString_escaped key (byte ':' :: more) between
  refine ⟨behind, ?_⟩
  rw [readKey?, hMore]
  show (under _ (readString _)).bind _ = _
  rw [hRead]
  rfl

/-- A member that is read is put in front of those read behind it. -/
theorem readMembers_cons {reader : Cursor → Except Fault (Json × Cursor)} {value : Json}
    {bytes more : List UInt8}
    (hValue : ∀ place, ∃ behind, reader ⟨bytes ++ more, place⟩ = .ok (value, ⟨more, behind⟩))
    (fuel : Nat) (first : Bool) (key : String) (place : Place) :
    ∃ behind, readMembers reader (fuel + 1) first
        ⟨mark first ++ (keyBytes key ++ (bytes ++ more)), place⟩ =
      (readMembers reader fuel false ⟨more, behind⟩).map
        fun read => ((key, value) :: read.1, read.2) := by
  obtain ⟨between, hKey⟩ := readKey?_mark first key (bytes ++ more) place
  obtain ⟨behind, hRead⟩ := hValue (between.past (byte ':'))
  refine ⟨behind, ?_⟩
  rw [readMembers, hKey]
  show (under _ (reader ⟨bytes ++ more, between.past (byte ':')⟩)).bind _ = _
  rw [hRead]
  rfl

/-! ## Texts of arrays and objects -/

/-- The bytes of texts with commas between, up to a closing mark. -/
def listed (close : UInt8) (first : Bool) : List String → List UInt8
  | [] => [close]
  | text :: rest => mark first ++ (encoded text.toList ++ listed close false rest)

/-- Behind an item stands a mark at which a number ends. -/
theorem ends_listed {close : UInt8} (h : close = byte ']' ∨ close = byte '\x7d')
    (texts : List String) (rest : List UInt8) : Ends (listed close false texts ++ rest) := by
  intro b hb
  cases texts with
  | nil =>
    obtain rfl : close = b := Option.some.inj hb
    exact Or.inr h
  | cons text others => exact Or.inl (Option.some.inj hb).symm

/-- Texts with commas between, and the mark that closes them. -/
theorem encoded_commaSep (close : UInt8) (texts : List String) :
    encoded (commaSep texts).toList ++ [close] = listed close true texts := by
  induction texts with
  | nil => rfl
  | cons text rest ih =>
    cases rest with
    | nil => simp [commaSep, listed, mark]
    | cons next others =>
      have hComma : encoded ",".toList = [byte ','] := by decide
      rw [commaSep, String.toList_append, String.toList_append, encoded_append,
        encoded_append, List.append_assoc, ih, hComma]
      simp [listed, mark]

/-- There are more bytes than texts, since each has its comma. -/
theorem length_le_listed (close : UInt8) (texts : List String) :
    texts.length < (listed close false texts).length := by
  induction texts with
  | nil => exact Nat.one_pos
  | cons text rest ih =>
    simp only [listed, mark, Bool.false_eq_true, if_false, List.length_append, List.length_cons,
      List.length_nil]
    omega

/-- There are enough bytes to count the texts by. -/
theorem length_lt_fuel (close : UInt8) (texts : List String) (rest : List UInt8) :
    texts.length < (listed close true texts ++ rest).length + 2 := by
  cases texts with
  | nil => exact Nat.succ_pos _
  | cons text others =>
    have hOthers := length_le_listed close others
    simp only [listed, List.length_append, List.length_cons]
    omega

/-- The bytes of an array. -/
theorem encoded_array (items : List Json) :
    encoded (Json.array items).text.toList =
      byte '[' :: listed (byte ']') true (itemTexts items) := by
  rw [← encoded_commaSep, text, bracketed, String.toList_append, String.toList_append,
    encoded_append, encoded_append]
  rfl

/-- The bytes of an object. -/
theorem encoded_object (members : List (String × Json)) :
    encoded (Json.object members).text.toList =
      byte '\x7b' :: listed (byte '\x7d') true (memberTexts members) := by
  rw [← encoded_commaSep, text, braced, String.toList_append, String.toList_append,
    encoded_append, encoded_append]
  rfl

/-- The bytes of a member: its key and its value. -/
theorem encoded_member (key : String) (value : Json) :
    encoded (escaped key ++ ":" ++ value.text).toList =
      keyBytes key ++ encoded value.text.toList := by
  rw [String.toList_append, encoded_append]
  rfl

/-- The bytes of a string: its escapes between quotes. -/
theorem encoded_string (s : String) : encoded (Json.string s).text.toList =
    byte '"' :: (encoded (s.toList.flatMap escapeChar) ++ [byte '"']) := by
  rw [text, escaped, enclosed, String.toList_ofList, List.cons_append, encoded_cons,
    encoded_append]
  rfl

/-- The bytes of digits are those that the number reader takes. -/
theorem encoded_digits (n : Nat) : encoded (Nat.toDigits 10 n) = digitBytes n := by
  refine encoded_ascii fun c hc => ?_
  have hBounds : 48 ≤ c.toNat ∧ c.toNat ≤ 57 := by
    simpa [Char.isDigit, UInt32.le_iff_toNat_le] using (toDigits_isDigits n).2 c hc
  omega

/-- A number is read back from its digits and its sign. -/
theorem readValue_integer {value : Int} (h : InRange value) (depth : Nat) :
    ReadBack (readValue depth) (encoded (integerText value).toList) (.number (.integer value)) := by
  intro rest hRest place
  cases value with
  -- without a sign the bound is that of unsigned numbers
  | ofNat n =>
    have hUpper : (n : Int) ≤ 18446744073709551615 := h.2
    have hFits : n ≤ maxUnsigned := by
      rw [maxUnsigned]
      omega
    obtain ⟨behind, hRead⟩ := readNumber_digitBytes hFits false hRest place
    obtain ⟨b, others, hFirst, hDigit⟩ := digitBytes_cons n
    refine ⟨behind, ?_⟩
    rw [integerText, String.toList_ofList, encoded_digits]
    rw [hFirst, List.cons_append] at hRead ⊢
    rw [readValue_digit hDigit, hRead]
    rfl
  -- with a sign the magnitude has a bound of its own
  | negSucc n =>
    have hLower : -9223372036854775808 ≤ Int.negSucc n := h.1
    have hNegated : n + 1 ≤ maxNegated := by
      rw [maxNegated]
      omega
    have hFits : n + 1 ≤ maxUnsigned := Nat.le_trans hNegated (by decide)
    obtain ⟨behind, hRead⟩ := readNumber_digitBytes hFits true hRest (place.past (byte '-'))
    refine ⟨behind, ?_⟩
    have hSign : encoded ('-' :: Nat.toDigits 10 (n + 1)) = byte '-' :: digitBytes (n + 1) := by
      rw [encoded_cons, encoded_digits]
      rfl
    rw [integerText, String.toList_ofList, hSign, List.cons_append, readValue_minus, hRead]
    show Except.ok (Json.number (integerNumber true (n + 1)), _) = _
    rw [integerNumber, Bool.not_true, if_neg Bool.false_ne_true, if_neg (Nat.succ_ne_zero n),
      if_pos hNegated, Int.negSucc_eq]
    rfl

/-- A text begins with a byte that may open an item. -/
theorem opens_text : ∀ (j : Json), j.IntegersOnly → Opens (encoded j.text.toList)
  | .null, _ => ⟨byte 'n', _, rfl, by decide, by decide⟩
  | .bool true, _ => ⟨byte 't', _, rfl, by decide, by decide⟩
  | .bool false, _ => ⟨byte 'f', _, rfl, by decide, by decide⟩
  | .number (.integer (.ofNat n)), _ => by
    -- a number begins with a digit or with its sign
    obtain ⟨b, others, hFirst, hDigit⟩ := digitBytes_cons n
    refine ⟨b, others, ?_, isBlank_of_isDigit hDigit, ne_of_isDigit hDigit (by decide)⟩
    rw [← hFirst, ← encoded_digits, text, Number.text, integerText, String.toList_ofList]
  | .number (.integer (.negSucc n)), _ => by
    refine ⟨byte '-', encoded (Nat.toDigits 10 (n + 1)), ?_, by decide, by decide⟩
    rw [text, Number.text, integerText, String.toList_ofList, encoded_cons]
    rfl
  | .number (.float _), h => h.elim
  | .string s, _ => ⟨byte '"', _, encoded_string s, by decide, by decide⟩
  | .array items, _ => ⟨byte '[', _, encoded_array items, by decide, by decide⟩
  | .object members, _ => ⟨byte '\x7b', _, encoded_object members, by decide, by decide⟩

/-- What is passed byte by byte is read back. -/
theorem readBack_of_passed {reader : Cursor → Except Fault (Json × Cursor)} {bytes : List UInt8}
    {value : Json} (h : ∀ rest place, reader ⟨bytes ++ rest, place⟩ =
      .ok (value, Cursor.advanceBy bytes.length ⟨bytes ++ rest, place⟩)) :
    ReadBack reader bytes value := by
  intro rest _ place
  obtain ⟨behind, hBehind⟩ := advanceBy_append bytes rest place
  exact ⟨behind, by rw [h, hBehind]⟩

mutual

/-- A value is read back from its text. -/
theorem readValue_text : ∀ (j : Json) {depth : Nat}, j.IntegersOnly → j.depth ≤ depth →
    ReadBack (readValue depth) (encoded j.text.toList) j
  | .null, depth, _, _ => readBack_of_passed (readValue_null depth)
  | .bool true, depth, _, _ => readBack_of_passed (readValue_true depth)
  | .bool false, depth, _, _ => readBack_of_passed (readValue_false depth)
  | .number (.integer value), depth, h, _ => readValue_integer h depth
  | .number (.float _), _, h, _ => h.elim
  | .string s, depth, _, _ => fun rest _ place => by
    obtain ⟨behind, hRead⟩ := readString_escaped s rest (place.past (byte '"'))
    refine ⟨behind, ?_⟩
    rw [encoded_string, List.cons_append, List.append_assoc, List.singleton_append,
      readValue_quote, hRead]
    rfl
  | .array items, 0, _, hDepth => absurd hDepth (by simp [Json.depth])
  | .array items, depth + 1, h, hDepth => fun rest _ place => by
    rw [Json.depth] at hDepth
    -- there is one turn at least for each item, and one level less inside
    obtain ⟨behind, hRead⟩ := readItems_texts items h (Nat.le_of_succ_le_succ hDepth) 0
      (length_lt_fuel _ _ rest) rest (place.past (byte '['))
    refine ⟨behind, ?_⟩
    have hFirst : ((0 : Nat) == 0) = true := rfl
    rw [hFirst] at hRead
    rw [encoded_array, List.cons_append, readValue_bracket, hRead]
    rfl
  | .object members, 0, _, hDepth => absurd hDepth (by simp [Json.depth])
  | .object members, depth + 1, h, hDepth => fun rest _ place => by
    rw [Json.depth] at hDepth
    obtain ⟨behind, hRead⟩ := readMembers_texts members h (Nat.le_of_succ_le_succ hDepth) true
      (length_lt_fuel _ _ rest) rest (place.past (byte '\x7b'))
    refine ⟨behind, ?_⟩
    rw [encoded_object, List.cons_append, readValue_brace, hRead]
    rfl

/-- The items behind the first one are read back, each behind its comma. -/
theorem readItems_texts : ∀ (items : List Json) {depth fuel : Nat}, IntegersOnlyInItems items →
    depthOfItems items ≤ depth → ∀ position : Nat, (itemTexts items).length < fuel →
      ∀ (rest : List UInt8) (place : Place), ∃ behind, readItems (readValue depth) fuel position
        ⟨listed (byte ']') (position == 0) (itemTexts items) ++ rest, place⟩ =
          .ok (items, ⟨rest, behind⟩)
  | [], _, 0, _, _, _, hFuel => absurd hFuel (by simp)
  | [], _, _ + 1, _, _, position, _ => fun rest place => ⟨place.past (byte ']'), by
    unfold readItems
    cases position <;> rfl⟩
  | item :: others, _, 0, _, _, _, hFuel => absurd hFuel (by simp)
  | item :: others, depth, fuel + 1, h, hDepth, position, hFuel => fun rest place => by
    rw [depthOfItems] at hDepth
    rw [itemTexts] at hFuel ⊢
    -- behind an item stands a comma or the closing bracket, so that a number ends there
    have hItem := readValue_text item h.1 (Nat.le_trans (Nat.le_max_left ..) hDepth)
      (listed (byte ']') false (itemTexts others) ++ rest) (ends_listed (Or.inl rfl) _ _)
    obtain ⟨between, hFirst⟩ := readItems_cons (opens_text item h.1) hItem fuel position place
    obtain ⟨behind, hRest⟩ := readItems_texts others h.2 (Nat.le_trans (Nat.le_max_right ..) hDepth)
      (position + 1) (Nat.lt_of_succ_lt_succ hFuel) rest between
    refine ⟨behind, ?_⟩
    have hLater : (position + 1 == 0) = false := rfl
    rw [hLater] at hRest
    rw [listed, List.append_assoc, List.append_assoc, hFirst, hRest]
    rfl

/-- The members of an object are read back. -/
theorem readMembers_texts : ∀ (members : List (String × Json)) {depth fuel : Nat},
    IntegersOnlyInMembers members → depthOfMembers members ≤ depth → ∀ first : Bool,
      (memberTexts members).length < fuel → ∀ (rest : List UInt8) (place : Place), ∃ behind,
        readMembers (readValue depth) fuel first
          ⟨listed (byte '\x7d') first (memberTexts members) ++ rest, place⟩ =
            .ok (members, ⟨rest, behind⟩)
  | [], _, 0, _, _, _, hFuel => absurd hFuel (by simp)
  | [], _, _ + 1, _, _, first, _ => fun rest place => ⟨place.past (byte '\x7d'), by
    unfold readMembers
    cases first <;> rfl⟩
  | (_, _) :: _, _, 0, _, _, _, hFuel => absurd hFuel (by simp)
  | (key, value) :: others, depth, fuel + 1, h, hDepth, first, hFuel => fun rest place => by
    rw [depthOfMembers] at hDepth
    rw [memberTexts] at hFuel ⊢
    -- behind a value stands a comma or the closing brace
    have hValue := readValue_text value h.1 (Nat.le_trans (Nat.le_max_left ..) hDepth)
      (listed (byte '\x7d') false (memberTexts others) ++ rest) (ends_listed (Or.inr rfl) _ _)
    obtain ⟨between, hFirst⟩ := readMembers_cons hValue fuel first key place
    obtain ⟨behind, hRest⟩ := readMembers_texts others h.2
      (Nat.le_trans (Nat.le_max_right ..) hDepth) false (Nat.lt_of_succ_lt_succ hFuel) rest between
    refine ⟨behind, ?_⟩
    rw [listed, encoded_member, List.append_assoc, List.append_assoc, List.append_assoc, hFirst,
      hRest]
    rfl

end

/-! ## Whole texts -/

/-- A value that can be read: it repeats no key and is nested no deeper than
the reader goes. -/
structure Readable (j : Json) : Prop where
  depth : j.depth ≤ maxDepth
  keys : j.KeysDistinct

/-- Such a value is read back from its whole text. -/
theorem ofText_text {j : Json} (h : j.IntegersOnly) (hReadable : j.Readable) :
    ofText j.text = .ok j := by
  have hEnds : Ends [] := nofun
  obtain ⟨behind, hRead⟩ := readValue_text j h hReadable.depth [] hEnds ⟨1, 0⟩
  rw [List.append_nil] at hRead
  rw [ofText]
  show (readValue maxDepth ⟨encoded j.text.toList, ⟨1, 0⟩⟩).bind _ = _
  rw [hRead]
  -- nothing stands behind the text, and there are no repeated keys to settle
  show Except.ok j.distinct = _
  rw [distinct_eq_self j hReadable.keys]

/-! ## What is read -/

/-- Every item that is read has been read by the reader of items. -/
theorem mem_readItems {α : Type} {item : Cursor → Except Fault (α × Cursor)}
    {fuel position : Nat} {c behind : Cursor} {items : List α}
    (h : readItems item fuel position c = .ok (items, behind)) :
    ∀ value ∈ items, ∃ before after, item before = .ok (value, after) := by
  -- each round reads one item, or finds the closing bracket
  induction fuel generalizing position c items with
  | zero => cases h
  | succ fuel ih =>
    obtain ⟨⟨more, between⟩, -, hMore⟩ := bind_inv h
    cases more with
    | false =>
      cases hMore
      exact nofun
    | true =>
      obtain ⟨⟨value, after⟩, hValue, hRest⟩ := bind_inv hMore
      obtain ⟨⟨others, rest⟩, hOthers, hEnd⟩ := bind_inv hRest
      cases hEnd
      exact List.forall_mem_cons.mpr ⟨⟨_, _, mapError_inv hValue⟩, ih hOthers⟩

/-- So has every member. -/
theorem mem_readMembers {α : Type} {reader : Cursor → Except Fault (α × Cursor)}
    {fuel : Nat} {first : Bool} {c behind : Cursor} {members : List (String × α)}
    (h : readMembers reader fuel first c = .ok (members, behind)) :
    ∀ entry ∈ members, ∃ before after, reader before = .ok (entry.2, after) := by
  -- by the turns of the loop, each of which reads one member
  induction fuel generalizing first c members with
  | zero => cases h
  | succ fuel ih =>
    obtain ⟨⟨key, between⟩, -, hMore⟩ := bind_inv h
    cases key with
    | none =>
      cases hMore
      exact nofun
    | some key =>
      obtain ⟨⟨_, colon⟩, -, hMore⟩ := bind_inv hMore
      obtain ⟨⟨value, after⟩, hValue, hRest⟩ := bind_inv hMore
      obtain ⟨⟨others, rest⟩, hOthers, hEnd⟩ := bind_inv hRest
      cases hEnd
      exact List.forall_mem_cons.mpr ⟨⟨_, _, mapError_inv hValue⟩, ih hOthers⟩

/-- No item is nested deeper than the deepest. -/
theorem depthOfItems_le_iff {items : List Json} {bound : Nat} :
    depthOfItems items ≤ bound ↔ ∀ item ∈ items, item.depth ≤ bound := by
  induction items with
  | nil => simp [depthOfItems]
  | cons item rest ih => rw [depthOfItems, Nat.max_le, ih, List.forall_mem_cons]

/-- Nor is any member. -/
theorem depthOfMembers_le_iff {members : List (String × Json)} {bound : Nat} :
    depthOfMembers members ≤ bound ↔ ∀ entry ∈ members, entry.2.depth ≤ bound := by
  induction members with
  | nil => simp [depthOfMembers]
  | cons entry rest ih => rw [depthOfMembers, Nat.max_le, ih, List.forall_mem_cons]

/-- What a value is read of, behind blanks: one case for each kind of byte that
a value may begin with. -/
inductive IsRead : Nat → Cursor → Json → Cursor → Prop where
  | null {depth : Nat} {c behind : Cursor} (hPeek : c.peek = some (byte 'n'))
      (hRead : readLiteral "ull" Json.null c = .ok (.null, behind)) : IsRead depth c .null behind
  | bool_true {depth : Nat} {c behind : Cursor} (hPeek : c.peek = some (byte 't'))
      (hRead : readLiteral "rue" (Json.bool true) c = .ok (.bool true, behind)) :
      IsRead depth c (.bool true) behind
  | bool_false {depth : Nat} {c behind : Cursor} (hPeek : c.peek = some (byte 'f'))
      (hRead : readLiteral "alse" (Json.bool false) c = .ok (.bool false, behind)) :
      IsRead depth c (.bool false) behind
  | string {depth : Nat} {c behind : Cursor} {s : String} (hPeek : c.peek = some (byte '"'))
      (hRead : readString c.advance = .ok (s, behind)) : IsRead depth c (.string s) behind
  | negative {depth : Nat} {c behind : Cursor} {n : Number} (hPeek : c.peek = some (byte '-'))
      (hRead : readNumber true c.advance = .ok (n, behind)) : IsRead depth c (.number n) behind
  | digits {depth : Nat} {c behind : Cursor} {n : Number} {b : UInt8} (hPeek : c.peek = some b)
      (hDigit : Cursor.isDigit b = true) (hRead : readNumber false c = .ok (n, behind)) :
      IsRead depth c (.number n) behind
  | array {depth : Nat} {c behind : Cursor} {items : List Json} (hPeek : c.peek = some (byte '['))
      (hRead : readItems (readValue depth) (c.rest.length + 1) 0 c.advance = .ok (items, behind)) :
      IsRead (depth + 1) c (.array items) behind
  | object {depth : Nat} {c behind : Cursor} {members : List (String × Json)}
      (hPeek : c.peek = some (byte '\x7b'))
      (hRead : readMembers (readValue depth) (c.rest.length + 1) true c.advance =
        .ok (members, behind)) : IsRead (depth + 1) c (.object members) behind

/-- Something is there to be read. -/
theorem IsRead.peek {depth : Nat} {c behind : Cursor} {j : Json} (h : IsRead depth c j behind) :
    ∃ b, c.peek = some b := by
  cases h <;> exact ⟨_, ‹_›⟩

/-- Whatever is read begins with one of these bytes and is read accordingly. -/
theorem isRead_of_readValue {depth : Nat} {c behind : Cursor} {j : Json}
    (h : readValue depth c = .ok (j, behind)) : IsRead depth c.skipBlanks j behind := by
  -- a word has one value, and everything else is made of what was read
  have hWord {others : String} {value : Json} {c : Cursor}
      (hRead : readLiteral others value c = .ok (j, behind)) :
      j = value := by
    obtain ⟨read, -, hEq⟩ := map_inv hRead
    exact (congrArg Prod.fst hEq).symm
  have hMade {α : Type} {reading : Except Fault (α × Cursor)} {make : α → Json}
      (hRead : reading.map (fun read => (make read.1, read.2)) = .ok (j, behind)) :
      ∃ a, reading = .ok (a, behind) ∧ make a = j := by
    obtain ⟨⟨a, last⟩, hFound, hEq⟩ := map_inv hRead
    cases hEq
    exact ⟨a, hFound, rfl⟩
  rw [readValue.eq_def] at h
  dsimp only at h
  split at h
  · cases h
  next b hPeek =>
  -- one case for each byte that a value may begin with, in the order of the reader
  split at h
  · next hNull =>
    obtain rfl := hWord h
    exact .null (hNull ▸ hPeek) h
  split at h
  · next hTrue =>
    obtain rfl := hWord h
    exact .bool_true (hTrue ▸ hPeek) h
  split at h
  · next hFalse =>
    obtain rfl := hWord h
    exact .bool_false (hFalse ▸ hPeek) h
  split at h
  · next hQuote =>
    obtain ⟨s, hRead, rfl⟩ := hMade h
    exact .string (hQuote ▸ hPeek) hRead
  split at h
  · next hMinus =>
    obtain ⟨n, hRead, rfl⟩ := hMade h
    exact .negative (hMinus ▸ hPeek) hRead
  split at h
  · next hDigit =>
    obtain ⟨n, hRead, rfl⟩ := hMade h
    exact .digits hPeek hDigit hRead
  split at h
  · next hBracket =>
    -- at the last level no bracket and no brace is taken
    cases depth with
    | zero => cases h
    | succ deeper =>
      obtain ⟨items, hRead, rfl⟩ := hMade h
      exact .array (hBracket ▸ hPeek) hRead
  split at h
  · next hBrace =>
    cases depth with
    | zero => cases h
    | succ deeper =>
      obtain ⟨members, hRead, rfl⟩ := hMade h
      exact .object (hBrace ▸ hPeek) hRead
  · cases h

/-- What is read is nested no deeper than the bound. -/
theorem depth_le_of_readValue {bound : Nat} {c behind : Cursor} {j : Json}
    (h : readValue bound c = .ok (j, behind)) : j.depth ≤ bound := by
  -- items and members are read with a level less
  induction bound generalizing c behind j with
  | zero => cases isRead_of_readValue h <;> exact Nat.le_refl _
  | succ bound ih =>
    cases isRead_of_readValue h with
    | array _ hRead =>
      refine Nat.succ_le_succ (depthOfItems_le_iff.mpr fun item hItem => ?_)
      obtain ⟨before, after, hRead⟩ := mem_readItems hRead item hItem
      exact ih hRead
    | object _ hRead =>
      refine Nat.succ_le_succ (depthOfMembers_le_iff.mpr fun entry hEntry => ?_)
      obtain ⟨before, after, hRead⟩ := mem_readMembers hRead entry hEntry
      exact ih hRead
    | null | bool_true | bool_false | string | negative | digits => exact Nat.zero_le _

mutual

/-- Settling repeated keys nests nothing deeper. -/
theorem depth_distinct_le : ∀ j : Json, j.distinct.depth ≤ j.depth
  | .null | .bool _ | .number _ | .string _ => Nat.le_refl _
  | .array items => by
    rw [distinct]
    exact Nat.succ_le_succ (depthOfItems_distinct_le items)
  | .object members => by
    rw [distinct, distinctMembers_eq_putAll]
    refine Nat.succ_le_succ (depthOfMembers_le_iff.mpr fun entry hEntry => ?_)
    rcases Fields.mem_putAll hEntry with hMember | hNone
    · exact depth_settled_le members entry hMember
    · exact absurd hNone List.not_mem_nil

/-- Item by item. -/
theorem depthOfItems_distinct_le : ∀ items : List Json,
    depthOfItems (distinctItems items) ≤ depthOfItems items
  | [] => Nat.le_refl _
  | item :: rest => by
    have hItem := depth_distinct_le item
    have hRest := depthOfItems_distinct_le rest
    rw [distinctItems, depthOfItems, depthOfItems]
    omega

/-- Member by member, before they are put under their keys. -/
theorem depth_settled_le : ∀ members : List (String × Json),
    ∀ entry ∈ members.map fun entry => (entry.1, entry.2.distinct),
      entry.2.depth ≤ depthOfMembers members
  | [] => nofun
  | (_, value) :: rest => by
    have hValue := depth_distinct_le value
    have hRest := depth_settled_le rest
    rw [depthOfMembers]
    refine List.forall_mem_cons.mpr ⟨?_, fun entry hEntry => ?_⟩
    · dsimp only
      omega
    · have hEntry := hRest entry hEntry
      omega

end

/-- What a whole text stands for can be read. -/
theorem readable_of_ofText {text : String} {j : Json} (h : ofText text = .ok j) : j.Readable := by
  rw [ofText] at h
  obtain ⟨⟨value, c⟩, hRead, hEnd⟩ := bind_inv h
  dsimp only at hEnd
  split at hEnd
  · cases hEnd
    exact ⟨Nat.le_trans value.depth_distinct_le (depth_le_of_readValue hRead),
      value.keysDistinct_distinct⟩
  · cases hEnd

/-- No item repeats a key. -/
theorem mem_keysDistinctInItems {items : List Json} :
    KeysDistinctInItems items ↔ ∀ item ∈ items, item.KeysDistinct := by
  induction items with
  | nil => simp [KeysDistinctInItems]
  | cons item rest ih => simp [KeysDistinctInItems, ih]

/-- So can the members and items of what can be read. -/
theorem Readable.child {j inner : Json} (h : j.Readable) {token : String}
    (hChild : j.child? token = some inner) : inner.Readable := by
  obtain ⟨hDepth, hKeys⟩ := h
  cases j with
  | object members =>
    rw [Json.depth] at hDepth
    rw [KeysDistinct] at hKeys
    -- what is below lies one level deeper, and its keys were distinct before
    obtain ⟨before, after, rfl, -⟩ := List.lookup_eq_some_iff.mp hChild
    have hMem : (token, inner) ∈ before ++ (token, inner) :: after := by simp
    exact ⟨depthOfMembers_le_iff.mp (Nat.le_of_succ_le hDepth) _ hMem,
      mem_keysDistinctInMembers.mp hKeys.2 _ hMem⟩
  | array items =>
    rw [Json.depth] at hDepth
    rw [KeysDistinct] at hKeys
    obtain ⟨index, -, hItem⟩ := Option.bind_eq_some_iff.mp hChild
    have hMem : inner ∈ items := List.mem_of_getElem? hItem
    exact ⟨depthOfItems_le_iff.mp (Nat.le_of_succ_le hDepth) _ hMem,
      mem_keysDistinctInItems.mp hKeys _ hMem⟩
  | _ => cases hChild

/-- So can what is found along some tokens. -/
theorem Readable.select {j inner : Json} (h : j.Readable) {tokens : List String}
    (hSelect : j.select tokens = some inner) : inner.Readable := by
  induction tokens generalizing j with
  | nil =>
    cases hSelect
    exact h
  | cons token rest ih =>
    obtain ⟨between, hChild, hRest⟩ := Option.bind_eq_some_iff.mp hSelect
    exact ih (h.child hChild) hRest

/-- What a pointer selects of it can be read too. -/
theorem Readable.point {j inner : Json} (h : j.Readable) {pointer : String}
    (hPoint : j.point pointer = some inner) : inner.Readable := by
  obtain ⟨tokens, -, hSelect⟩ := Option.bind_eq_some_iff.mp hPoint
  exact h.select hSelect

end JsonStencil.Json
