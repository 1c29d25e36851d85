import JsonStencil.Json.Reader
import JsonStencil.Proofs.Numerals

/-!
# Reading back characters, literals and numerals

What is written is read back piece by piece. The bytes of a character are
decoded to that character, whatever stands behind them; a literal is read up
to its closing quote, each character from the way in which it was escaped;
and the digits of a number are taken in up to the mark behind them, as long
as the number fits 64 bits.

Main definitions:

* `Text.encoded` — the bytes of some characters.
* `Json.Ends` — what may stand behind a value in a compact text.

Main results:

* `Text.ofBytes?_bytes` — the bytes of a string are read back as that string.
* `Json.readString_escaped` — a literal is read back.
* `Json.readNumber_digitBytes` — digits are read back.
-/

namespace JsonStencil

namespace Text

section Decoding

variable {a b c d : UInt8} {rest : List UInt8}

/-- A byte below 0x80 is a character of its own. -/
theorem decodeChar?_one (h : a.toNat < 0x80) :
    decodeChar? (a :: rest) = some (Char.ofNat a.toNat, 1) := by
  unfold decodeChar?
  exact if_pos (UInt8.lt_iff_toNat_lt.mpr h)

/-- A byte that may follow another one has its first two bits 10. -/
theorem isContinuation_iff : isContinuation b = true ↔ 0x80 ≤ b.toNat ∧ b.toNat ≤ 0xBF := by
  simp [isContinuation, UInt8.le_iff_toNat_le]

/-- Two bytes with five and six bits of a character. -/
theorem decodeChar?_two (ha : 0xC2 ≤ a.toNat ∧ a.toNat ≤ 0xDF)
    (hb : 0x80 ≤ b.toNat ∧ b.toNat ≤ 0xBF) :
    decodeChar? (a :: b :: rest) = some (Char.ofNat (a.toNat % 32 * 64 + payload b), 2) := by
  have hFar : ¬ a < 0x80 := by
    simp only [UInt8.lt_iff_toNat_lt, UInt8.reduceToNat]
    omega
  simp [decodeChar?, hFar, isContinuation_iff.mpr hb, UInt8.le_iff_toNat_le, ha]

/-- Three bytes with four, six and six bits, not too few for them and no
surrogate. -/
theorem decodeChar?_three (ha : 0xE0 ≤ a.toNat ∧ a.toNat ≤ 0xEF)
    (hb : 0x80 ≤ b.toNat ∧ b.toNat ≤ 0xBF) (hc : 0x80 ≤ c.toNat ∧ c.toNat ≤ 0xBF)
    (hLow : a.toNat = 0xE0 → 0xA0 ≤ b.toNat) (hSurrogate : a.toNat = 0xED → b.toNat ≤ 0x9F) :
    decodeChar? (a :: b :: c :: rest) =
      some (Char.ofNat ((a.toNat % 16 * 64 + payload b) * 64 + payload c), 3) := by
  have hFar : ¬ a < 0x80 := by
    simp only [UInt8.lt_iff_toNat_lt, UInt8.reduceToNat]
    omega
  have hTwo : ¬ a ≤ 0xDF := by
    simp only [UInt8.le_iff_toNat_le, UInt8.reduceToNat]
    omega
  -- the second byte is bounded behind the first and the last of the leading bytes
  have hFits : fitsThree a b = true := by
    unfold fitsThree
    simp only [← UInt8.toNat_inj, UInt8.le_iff_toNat_le, UInt8.reduceToNat]
    split
    · simp; omega
    split
    · simp; omega
    · simp [isContinuation_iff.mpr hb]; omega
  simp [decodeChar?, hFar, hTwo, hFits, isContinuation_iff.mpr hc]

/-- Four bytes with three, six, six and six bits, not too few and not too many
for them. -/
theorem decodeChar?_four (ha : 0xF0 ≤ a.toNat ∧ a.toNat ≤ 0xF4)
    (hb : 0x80 ≤ b.toNat ∧ b.toNat ≤ 0xBF) (hc : 0x80 ≤ c.toNat ∧ c.toNat ≤ 0xBF)
    (hd : 0x80 ≤ d.toNat ∧ d.toNat ≤ 0xBF) (hLow : a.toNat = 0xF0 → 0x90 ≤ b.toNat)
    (hHigh : a.toNat = 0xF4 → b.toNat ≤ 0x8F) :
    decodeChar? (a :: b :: c :: d :: rest) =
      some (Char.ofNat (((a.toNat % 8 * 64 + payload b) * 64 + payload c) * 64 + payload d),
        4) := by
  -- the first byte rules out the shorter forms
  have hFar : ¬ a < 0x80 := by
    simp only [UInt8.lt_iff_toNat_lt, UInt8.reduceToNat]
    omega
  have hTwo : ¬ a ≤ 0xDF := by
    simp only [UInt8.le_iff_toNat_le, UInt8.reduceToNat]
    omega
  have hThree : fitsThree a b = false := by
    have hLast : a.toNat ≠ 0xE0 ∧ a.toNat ≠ 0xED ∧ ¬ a.toNat ≤ 0xEF := by omega
    simp [fitsThree, ← UInt8.toNat_inj, UInt8.le_iff_toNat_le, hLast]
  -- after the least and the greatest first byte the second one has less room
  have hFits : fitsFour a b = true := by
    unfold fitsFour
    simp only [← UInt8.toNat_inj, UInt8.le_iff_toNat_le, UInt8.reduceToNat]
    split
    · simp; omega
    split
    · simp; omega
    · simp [isContinuation_iff.mpr hb]; omega
  simp [decodeChar?, hFar, hTwo, hThree, hFits, isContinuation_iff.mpr hc,
    isContinuation_iff.mpr hd]

end Decoding

/-- A byte below 256 is taken as it is. -/
theorem toNat_ofNat_of_lt {n : Nat} (h : n < 256) : (UInt8.ofNat n).toNat = n := by
  rw [UInt8.toNat_ofNat']
  exact Nat.mod_eq_of_lt h

/-- The bytes of a character are read back as that character. -/
theorem decodeChar?_utf8EncodeChar (c : Char) (rest : List UInt8) :
    decodeChar? (String.utf8EncodeChar c ++ rest) = some (c, (String.utf8EncodeChar c).length) := by
  have hChar : Char.ofNat c.val.toNat = c := Char.ofNat_toNat c
  have hValid : c.val.toNat < 0xD800 ∨ 0xDFFF < c.val.toNat ∧ c.val.toNat < 0x110000 := c.valid
  unfold String.utf8EncodeChar
  generalize c.val.toNat = v at hChar hValid
  -- each byte behind the first one holds six bits
  have hLast : (UInt8.ofNat (v % 64 + 128)).toNat = v % 64 + 128 := toNat_ofNat_of_lt (by omega)
  have hThird : (UInt8.ofNat (v / 64 % 64 + 128)).toNat = v / 64 % 64 + 128 :=
    toNat_ofNat_of_lt (by omega)
  have hSecond : (UInt8.ofNat (v / 4096 % 64 + 128)).toNat = v / 4096 % 64 + 128 :=
    toNat_ofNat_of_lt (by omega)
  dsimp only
  -- one case for each number of bytes; `hValue` puts the bits that they hold together again
  split
  · have hByte : (UInt8.ofNat v).toNat = v := toNat_ofNat_of_lt (by omega)
    rw [List.singleton_append, decodeChar?_one (by omega), hByte, hChar]
    rfl
  split
  · have hFirst : (UInt8.ofNat (v / 64 % 32 + 192)).toNat = v / 64 % 32 + 192 :=
      toNat_ofNat_of_lt (by omega)
    have hValue : (v / 64 % 32 + 192) % 32 * 64 + (v % 64 + 128) % 64 = v := by omega
    rw [List.cons_append, List.singleton_append, decodeChar?_two (by omega) (by omega), payload,
      hFirst, hLast, hValue, hChar]
    rfl
  split
  · have hFirst : (UInt8.ofNat (v / 4096 % 16 + 224)).toNat = v / 4096 % 16 + 224 :=
      toNat_ofNat_of_lt (by omega)
    have hValue : ((v / 4096 % 16 + 224) % 16 * 64 + (v / 64 % 64 + 128) % 64) * 64 +
        (v % 64 + 128) % 64 = v := by omega
    rw [List.cons_append, List.cons_append, List.singleton_append, decodeChar?_three (by omega)
      (by omega) (by omega) (by omega) (by omega), payload, payload, hFirst, hThird, hLast, hValue,
      hChar]
    rfl
  · have hFirst : (UInt8.ofNat (v / 262144 % 8 + 240)).toNat = v / 262144 % 8 + 240 :=
      toNat_ofNat_of_lt (by omega)
    have hValue : (((v / 262144 % 8 + 240) % 8 * 64 + (v / 4096 % 64 + 128) % 64) * 64 +
        (v / 64 % 64 + 128) % 64) * 64 + (v % 64 + 128) % 64 = v := by omega
    rw [List.cons_append, List.cons_append, List.cons_append, List.singleton_append,
      decodeChar?_four (by omega) (by omega) (by omega) (by omega) (by omega) (by omega), payload,
      payload, payload, hFirst, hSecond, hThird, hLast, hValue, hChar]
    rfl

/-- A character that is no ASCII begins with a byte that is none either. -/
theorem head_utf8EncodeChar (c : Char) : ∃ b others, String.utf8EncodeChar c = b :: others ∧
    (c.toNat < 0x80 ∧ b.toNat = c.toNat ∧ others = [] ∨ 0x80 ≤ b.toNat) := by
  have hValue : c.val.toNat = c.toNat := rfl
  unfold String.utf8EncodeChar
  rw [hValue]
  dsimp only
  split
  · refine ⟨_, _, rfl, Or.inl ⟨by omega, toNat_ofNat_of_lt (by omega), rfl⟩⟩
  split
  · exact ⟨_, _, rfl, Or.inr (by rw [toNat_ofNat_of_lt (by omega)]; omega)⟩
  split
  · exact ⟨_, _, rfl, Or.inr (by rw [toNat_ofNat_of_lt (by omega)]; omega)⟩
  · exact ⟨_, _, rfl, Or.inr (by rw [toNat_ofNat_of_lt (by omega)]; omega)⟩

/-- The bytes of some characters. -/
def encoded (cs : List Char) : List UInt8 := cs.flatMap String.utf8EncodeChar

theorem encoded_append (cs ds : List Char) : encoded (cs ++ ds) = encoded cs ++ encoded ds :=
  List.flatMap_append

theorem encoded_cons (c : Char) (cs : List Char) :
    encoded (c :: cs) = String.utf8EncodeChar c ++ encoded cs :=
  List.flatMap_cons

/-- No character has fewer bytes than one. -/
theorem length_le_encoded (cs : List Char) : cs.length ≤ (encoded cs).length := by
  induction cs with
  | nil => exact Nat.le_refl 0
  | cons c rest ih =>
    obtain ⟨b, others, hBytes, -⟩ := head_utf8EncodeChar c
    rw [encoded_cons, hBytes, List.length_append, List.length_cons, List.length_cons]
    omega

/-- The bytes of characters are read back, given as many turns as characters. -/
theorem decode?_encoded (cs : List Char) {fuel : Nat} (h : cs.length ≤ fuel) :
    decode? fuel (encoded cs) = some cs := by
  induction cs generalizing fuel with
  | nil => cases fuel <;> rfl
  | cons c rest ih =>
    obtain ⟨b, others, hBytes, -⟩ := head_utf8EncodeChar c
    cases fuel with
    | zero => exact absurd h (by simp)
    | succ fuel =>
      have hDecode := decodeChar?_utf8EncodeChar c (encoded rest)
      -- behind the bytes of one character the others are left
      have hRest : (String.utf8EncodeChar c ++ encoded rest).drop
          (String.utf8EncodeChar c).length = encoded rest := List.drop_left
      rw [encoded_cons]
      rw [hBytes, List.cons_append] at hDecode hRest ⊢
      rw [decode?, hDecode]
      dsimp only
      rw [hRest, ih (Nat.le_of_succ_le_succ h)]
      rfl

/-- The bytes of a string are read back as that string. -/
theorem ofBytes?_bytes (s : String) : ofBytes? (bytes s) = some s := by
  have hDecode : decode? (bytes s).length (bytes s) = some s.toList :=
    decode?_encoded s.toList (length_le_encoded s.toList)
  rw [ofBytes?, hDecode, Option.map_some, String.ofList_toList]

end Text

namespace Json

open Text

/-! ## Cursors -/

/-- A character of ASCII is one byte. -/
theorem byte_eq {c : Char} (h : c.toNat < 0x80) : String.utf8EncodeChar c = [byte c] := by
  unfold String.utf8EncodeChar
  exact if_pos (show c.toNat ≤ 127 by omega)

theorem toNat_byte {c : Char} (h : c.toNat < 0x80) : (byte c).toNat = c.toNat :=
  toNat_ofNat_of_lt (by omega)

/-- Characters of ASCII with one byte are one character. -/
theorem byte_inj {c d : Char} (hc : c.toNat < 0x80) (hd : d.toNat < 0x80)
    (h : byte c = byte d) : c = d := by
  rw [← Char.toNat_inj, ← toNat_byte hc, h, toNat_byte hd]

/-- The bytes of characters of ASCII are those of each. -/
theorem encoded_ascii {cs : List Char} (h : ∀ c ∈ cs, c.toNat < 0x80) :
    encoded cs = cs.map byte := by
  induction cs with
  | nil => rfl
  | cons c rest ih =>
    obtain ⟨hFirst, hRest⟩ := List.forall_mem_cons.mp h
    rw [encoded_cons, byte_eq hFirst, ih hRest]
    rfl

/-- Passing some bytes leaves what stands behind them. -/
theorem advanceBy_append (first rest : List UInt8) (place : Place) :
    ∃ behind, Cursor.advanceBy first.length ⟨first ++ rest, place⟩ = ⟨rest, behind⟩ := by
  induction first generalizing place with
  | nil => exact ⟨place, rfl⟩
  | cons b others ih => exact ih (place.past b)

/-! ## String literals -/

/-- An escape is read as its character, and reading goes on behind it. -/
theorem readChars_escape {c : Char} {escape more : List UInt8}
    (h : ∀ place, ∃ behind, readEscape ⟨escape ++ more, place⟩ = .ok (c, ⟨more, behind⟩))
    (fuel : Nat) (place : Place) :
    ∃ behind, readChars (fuel + 1) none ⟨byte '\\' :: escape ++ more, place⟩ =
      (readChars fuel none ⟨more, behind⟩).map fun read => (c :: read.1, read.2) := by
  obtain ⟨behind, hEscape⟩ := h (place.past (byte '\\'))
  refine ⟨behind, ?_⟩
  rw [readChars]
  show (if byte '\\' = byte '"' then _ else if byte '\\' = byte '\\' then _ else _) = _
  rw [if_neg (by decide), if_pos rfl]
  show (readEscape ⟨escape ++ more, place.past (byte '\\')⟩).bind _ = _
  rw [hEscape]
  rfl

/-- A letter behind a backslash is read as what it stands for. -/
theorem readEscape_letter {b : UInt8} {c : Char} (h : letterEscape? b = some c)
    (more : List UInt8) (place : Place) :
    ∃ behind, readEscape ⟨[b] ++ more, place⟩ = .ok (c, ⟨more, behind⟩) := by
  refine ⟨place.past b, ?_⟩
  have hPeek : Cursor.peek ⟨[b] ++ more, place⟩ = some b := rfl
  simp only [readEscape, hPeek, h]
  rfl

/-- Hexadecimal digits are read as their numbers. -/
theorem hexValue?_hexDigit : ∀ n < 16, hexValue? (byte (hexDigit n)) = some n := by decide

/-- A control character is read back from the number behind `\u`. -/
theorem readEscape_control {c : Char} (h : c.toNat < 0x20) (more : List UInt8) (place : Place) :
    ∃ behind, readEscape ⟨[byte 'u', byte '0', byte '0', byte (hexDigit (c.toNat / 16)),
      byte (hexDigit (c.toNat % 16))] ++ more, place⟩ = .ok (c, ⟨more, behind⟩) := by
  have hHigh := hexValue?_hexDigit (c.toNat / 16) (by omega)
  have hLow := hexValue?_hexDigit (c.toNat % 16) (by omega)
  have hZero : hexValue? (byte '0') = some 0 := by decide
  have hNumber : hexNumber? [byte '0', byte '0', byte (hexDigit (c.toNat / 16)),
      byte (hexDigit (c.toNat % 16))] = some c.toNat := by
    simp [hexNumber?, hHigh, hLow, hZero]
    omega
  obtain ⟨behind, hBehind⟩ := advanceBy_append [byte '0', byte '0',
    byte (hexDigit (c.toNat / 16)), byte (hexDigit (c.toNat % 16))] more (place.past (byte 'u'))
  refine ⟨behind, ?_⟩
  have hHex : readHex ⟨[byte '0', byte '0', byte (hexDigit (c.toNat / 16)),
      byte (hexDigit (c.toNat % 16))] ++ more, place.past (byte 'u')⟩ =
        .ok (c.toNat, ⟨more, behind⟩) := by
    rw [readHex, if_neg (by simp)]
    simp only [List.cons_append, List.take_succ_cons, List.take_zero, hNumber]
    exact congrArg (fun behind => Except.ok (c.toNat, behind)) hBehind
  show (readUnicode ⟨[byte '0', byte '0', byte (hexDigit (c.toNat / 16)),
      byte (hexDigit (c.toNat % 16))] ++ more, place.past (byte 'u')⟩) = _
  show (readHex _).bind _ = _
  rw [hHex]
  -- it is no half of a surrogate pair, so that no other half is looked for
  have hTrailing : isTrailing c.toNat = false := by simp [isTrailing]; omega
  have hLeading : isLeading c.toNat = false := by simp [isLeading]; omega
  simp [Except.bind, hTrailing, hLeading]

/-- A character that needs no escape is read by its bytes. -/
theorem readChars_plain {c : Char} (hQuote : c ≠ '"') (hBack : c ≠ '\\') (hLow : ¬ c.val < 0x20)
    (more : List UInt8) (fuel : Nat) (place : Place) :
    ∃ behind, readChars (fuel + 1) none ⟨encoded [c] ++ more, place⟩ =
      (readChars fuel none ⟨more, behind⟩).map fun read => (c :: read.1, read.2) := by
  have hEncoded : encoded [c] = String.utf8EncodeChar c := List.append_nil _
  obtain ⟨behind, hBehind⟩ := advanceBy_append (String.utf8EncodeChar c) more place
  have hDecode := decodeChar?_utf8EncodeChar c more
  obtain ⟨b, others, hBytes, hFirst⟩ := head_utf8EncodeChar c
  refine ⟨behind, ?_⟩
  -- its first byte is the character itself or no ASCII, and so neither mark
  have hFar {d : Char} (hd : d.toNat < 0x80) (hNe : c ≠ d) : b ≠ byte d := by
    intro hEq
    rcases hFirst with ⟨-, hSame, -⟩ | hHigh
    · refine hNe (Char.toNat_inj.mp ?_)
      rw [← hSame, hEq, toNat_byte hd]
    · rw [hEq, toNat_byte hd] at hHigh
      omega
  have hPrintable : ¬ b < 0x20 := by
    have hChar : 0x20 ≤ c.toNat := Nat.le_of_not_lt hLow
    simp only [UInt8.lt_iff_toNat_lt, UInt8.reduceToNat]
    omega
  rw [hEncoded, readChars]
  rw [hBytes, List.cons_append] at hDecode hBehind ⊢
  simp only [Cursor.peek, List.head?_cons]
  rw [if_neg (hFar (by decide) hQuote), if_neg (hFar (by decide) hBack), if_neg hPrintable, hDecode]
  show (readChars fuel none (Cursor.advanceBy _ _)).bind _ = _
  rw [hBehind]
  rfl

/-- Hexadecimal digits are ASCII. -/
theorem hexDigit_ascii : ∀ n < 16, (hexDigit n).toNat < 0x80 := by decide

/-- A character as it is written in a literal is read back as that
character. -/
theorem readChars_escapeChar (c : Char) (more : List UInt8) (fuel : Nat) (place : Place) :
    ∃ behind, readChars (fuel + 1) none ⟨encoded (escapeChar c) ++ more, place⟩ =
      (readChars fuel none ⟨more, behind⟩).map fun read => (c :: read.1, read.2) := by
  have hLetter {b : UInt8} (h : letterEscape? b = some c) :=
    readChars_escape (readEscape_letter h more) fuel place
  -- the cases are those in which the character was escaped
  unfold escapeChar
  split
  · next h => subst h; exact hLetter (by decide)
  split
  · next h => subst h; exact hLetter (by decide)
  split
  · next h => subst h; exact hLetter (by decide)
  split
  · next h => subst h; exact hLetter (by decide)
  split
  · next h => subst h; exact hLetter (by decide)
  split
  · next h => subst h; exact hLetter (by decide)
  split
  · next h => subst h; exact hLetter (by decide)
  split
  · next h =>
    have hControl : c.toNat < 0x20 := h
    rw [encoded_ascii]
    · exact readChars_escape (readEscape_control hControl more) fuel place
    · simp only [List.forall_mem_cons, List.not_mem_nil, false_implies, implies_true, and_true]
      exact ⟨by decide, by decide, by decide, by decide, hexDigit_ascii _ (by omega),
        hexDigit_ascii _ (by omega)⟩
  · next hQuote hBack _ _ _ _ _ hLow => exact readChars_plain hQuote hBack hLow more fuel place

/-- The characters of a literal are read back up to its closing quote. -/
theorem readChars_literal (cs : List Char) (more : List UInt8) {fuel : Nat} (h : cs.length < fuel)
    (place : Place) :
    ∃ behind, readChars fuel none ⟨encoded (cs.flatMap escapeChar) ++ byte '"' :: more, place⟩ =
      .ok (cs, ⟨more, behind⟩) := by
  -- each character takes one turn, and the closing quote the turn that is left
  induction cs generalizing fuel place with
  | nil =>
    cases fuel with
    | zero => exact absurd h (by simp)
    | succ fuel => exact ⟨place.past (byte '"'), rfl⟩
  | cons c rest ih =>
    cases fuel with
    | zero => exact absurd h (by simp)
    | succ fuel =>
      rw [List.flatMap_cons, encoded_append, List.append_assoc]
      obtain ⟨between, hFirst⟩ := readChars_escapeChar c _ fuel place
      obtain ⟨behind, hRest⟩ := ih (Nat.lt_of_succ_lt_succ h) between
      refine ⟨behind, ?_⟩
      rw [hFirst, hRest]
      rfl

/-- No character is escaped to nothing. -/
theorem escapeChar_ne_nil (c : Char) : escapeChar c ≠ [] := by
  unfold escapeChar
  grind

/-- Escaping makes no text shorter. -/
theorem length_le_flatMap_escapeChar (cs : List Char) :
    cs.length ≤ (cs.flatMap escapeChar).length := by
  induction cs with
  | nil => exact Nat.le_refl 0
  | cons c rest ih =>
    have hSome := List.length_pos_iff.mpr (escapeChar_ne_nil c)
    rw [List.flatMap_cons, List.length_append, List.length_cons]
    omega

/-- A literal is read back behind its opening quote. -/
theorem readString_escaped (s : String) (more : List UInt8) (place : Place) :
    ∃ behind, readString ⟨encoded (s.toList.flatMap escapeChar) ++ byte '"' :: more, place⟩ =
      .ok (s, ⟨more, behind⟩) := by
  -- there are as many turns as bytes, which are at least as many as characters
  have hFuel : s.toList.length <
      (encoded (s.toList.flatMap escapeChar) ++ byte '"' :: more).length + 1 := by
    have hEncoded := length_le_encoded (s.toList.flatMap escapeChar)
    have hEscaped := length_le_flatMap_escapeChar s.toList
    rw [List.length_append]
    omega
  obtain ⟨behind, hRead⟩ := readChars_literal s.toList more hFuel place
  refine ⟨behind, ?_⟩
  show (readChars _ none _).bind _ = _
  rw [hRead]
  show Except.ok (String.ofList s.toList, _) = _
  rw [String.ofList_toList]

/-! ## Numerals -/

/-- What may stand behind a value in a compact text: nothing, or a mark. -/
def Ends (rest : List UInt8) : Prop :=
  ∀ b ∈ rest.head?, b = byte ',' ∨ b = byte ']' ∨ b = byte '\x7d'

/-- What ends a value is not the start of anything else. -/
theorem Ends.peek {rest : List UInt8} (h : Ends rest) (place : Place) {b : UInt8}
    (hb : b ≠ byte ',' ∧ b ≠ byte ']' ∧ b ≠ byte '\x7d') :
    Cursor.peek ⟨rest, place⟩ ≠ some b := by
  intro hPeek
  rcases h b hPeek with hEq | hEq | hEq
  · exact hb.1 hEq
  · exact hb.2.1 hEq
  · exact hb.2.2 hEq

/-- The byte of a digit is a digit. -/
theorem isDigit_byte {c : Char} (h : c.isDigit = true) : Cursor.isDigit (byte c) = true := by
  have hBounds : 48 ≤ c.toNat ∧ c.toNat ≤ 57 := by
    simpa [Char.isDigit, UInt32.le_iff_toNat_le] using h
  have hByte := toNat_byte (c := c) (by omega)
  have hZero : (byte '0').toNat = 48 := rfl
  have hNine : (byte '9').toNat = 57 := rfl
  simp only [Cursor.isDigit, UInt8.le_iff_toNat_le, hByte, hZero, hNine, Bool.and_eq_true,
    decide_eq_true_eq]
  exact hBounds

/-- Digits are taken in up to what ends the value. -/
theorem takeDigits_append {digits rest : List UInt8}
    (hDigits : ∀ b ∈ digits, Cursor.isDigit b = true) (hRest : Ends rest) (place : Place) :
    ∃ behind, Cursor.takeDigits ⟨digits ++ rest, place⟩ =
      (digits.map Cursor.digit, ⟨rest, behind⟩) := by
  have hStop : rest.takeWhile Cursor.isDigit = [] := by
    cases rest with
    | nil => rfl
    | cons b others =>
      rcases hRest b rfl with rfl | rfl | rfl <;> rfl
  have hTaken : (digits ++ rest).takeWhile Cursor.isDigit = digits := by
    rw [List.takeWhile_append_of_pos hDigits, hStop, List.append_nil]
  refine ⟨⟨place.line, place.column + digits.length⟩, ?_⟩
  rw [Cursor.takeDigits]
  simp only [hTaken, List.drop_left]

/-- The digits of a number as bytes. -/
def digitBytes (n : Nat) : List UInt8 := (Nat.toDigits 10 n).map byte

/-- Decimal digits are read as their numbers. -/
theorem digit_digitChar : ∀ d < 10, Cursor.digit (byte (Nat.digitChar d)) = d := by decide

/-- The digits of a number that fits are all taken in. -/
theorem pushAll_digitBytes (n : Nat) (h : n ≤ maxUnsigned) :
    ∃ taken, ({} : Significand).pushAll ((digitBytes n).map Cursor.digit) = ⟨n, taken, 0⟩ := by
  -- digits are taken in from the left, so the last digit is split off the number
  induction n using Nat.strongRecOn with
  | ind n ih =>
    rcases Nat.lt_or_ge n 10 with hSmall | hLarge
    · refine ⟨1, ?_⟩
      rw [digitBytes, Nat.toDigits_of_lt_base hSmall]
      simp [Significand.pushAll, Significand.push, digit_digitChar n hSmall, h]
    · -- the last digit comes behind those of `n / 10`, which fits as well
      obtain ⟨taken, hFront⟩ := ih (n / 10) (by omega) (by omega)
      refine ⟨taken + 1, ?_⟩
      rw [digitBytes, Nat.toDigits_of_base_le (by decide) hLarge]
      rw [digitBytes] at hFront
      have hLast := digit_digitChar (n % 10) (by omega)
      have hValue : n / 10 * 10 + n % 10 = n := by omega
      rw [Significand.pushAll] at hFront ⊢
      rw [List.map_append, List.map_append, List.foldl_append, hFront]
      simp [Significand.push, hLast, hValue, h]

/-- A number has a first digit. -/
theorem digitBytes_cons (n : Nat) :
    ∃ b others, digitBytes n = b :: others ∧ Cursor.isDigit b = true := by
  obtain ⟨hSome, hDigits⟩ := toDigits_isDigits n
  obtain ⟨c, rest, hFirst⟩ := List.exists_cons_of_ne_nil hSome
  refine ⟨byte c, rest.map byte, ?_, isDigit_byte (hDigits c (hFirst ▸ List.mem_cons_self ..))⟩
  rw [digitBytes, hFirst, List.map_cons]

/-- The digits of a number are read back up to a mark or the end. -/
theorem readNumber_digitBytes {n : Nat} (h : n ≤ maxUnsigned) (negative : Bool)
    {rest : List UInt8} (hRest : Ends rest) (place : Place) :
    ∃ behind, readNumber negative ⟨digitBytes n ++ rest, place⟩ =
      .ok (integerNumber negative n, ⟨rest, behind⟩) := by
  obtain ⟨hSome, hDigits⟩ := toDigits_isDigits n
  have hBytes : ∀ b ∈ digitBytes n, Cursor.isDigit b = true := by
    intro b hb
    obtain ⟨c, hc, rfl⟩ := List.mem_map.mp hb
    exact isDigit_byte (hDigits c hc)
  obtain ⟨behind, hTaken⟩ := takeDigits_append hBytes hRest place
  obtain ⟨taken, hPushed⟩ := pushAll_digitBytes n h
  -- only the numeral of zero begins with a zero, and it has no other digit
  have hLeading : ¬ ((digitBytes n).head? = some (byte '0') ∧
      1 < ((digitBytes n).map Cursor.digit).length) := by
    rintro ⟨hZero, hLong⟩
    by_cases hn : n = 0
    · subst hn
      exact absurd hLong (by decide)
    · rw [digitBytes, List.head?_map, Option.map_eq_some_iff] at hZero
      obtain ⟨c, hHead, hByte⟩ := hZero
      have hDigit := hDigits c (List.mem_of_mem_head? hHead)
      have hBounds : c.toNat ≤ 57 := by
        simp only [Char.isDigit, Bool.and_eq_true, decide_eq_true_eq] at hDigit
        exact hDigit.2
      rw [byte_inj (by omega) (by decide) hByte] at hHead
      exact head_toDigits_ne_zero hn hHead
  refine ⟨behind, ?_⟩
  obtain ⟨b, others, hFirst, hDigit⟩ := digitBytes_cons n
  -- what ends a value opens neither a fraction nor an exponent
  have hPoint : Cursor.peek ⟨rest, behind⟩ ≠ some (byte '.') := hRest.peek behind (by decide)
  have hExponent : opensExponent (Cursor.peek ⟨rest, behind⟩) = false := by
    have hSmall := hRest.peek behind (b := byte 'e') (by decide)
    have hLarge := hRest.peek behind (b := byte 'E') (by decide)
    simp [opensExponent, hSmall, hLarge]
  have hPeek : Cursor.peek ⟨digitBytes n ++ rest, place⟩ = some b := by
    rw [hFirst]
    rfl
  rw [hFirst, List.head?_cons, Option.some.injEq, ← hFirst] at hLeading
  rw [readNumber, hPeek, hTaken]
  simp only [hDigit, Bool.not_true, Bool.false_eq_true, if_false, if_neg hLeading, hPushed,
    if_neg hPoint, hExponent, ne_eq, not_true_eq_false, or_self]

end Json

end JsonStencil
