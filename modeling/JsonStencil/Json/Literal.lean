import JsonStencil.Text.Utf8

/-!
# String literals

A string is written between quotes. The quote, the backslash and the control
characters below U+0020 are escaped, five of the latter by a letter and the
others by four lower-case hexadecimal digits; every other character stands
for itself. A string that needs no escape is copied as it is, and where the
caller vouches for the strings every one of them is. Whether a string needs an
escape is asked of its bytes.

Main definitions:

* `Json.Escaping` — how string values are written between their quotes.
* `Json.escaped` — the literal of a string.
* `Json.literal` — the literal of a string under a way of escaping.

Main results:

* `any_bytes_needsEscape` — the bytes of a string tell whether one of its
  characters needs an escape.
* `literal_json` — copying a string that needs no escape writes its literal.
-/

namespace JsonStencil.Json

/-- How string values are written between their quotes. -/
inductive Escaping where
  /-- Whatever has to be escaped is escaped. -/
  | json
  /-- Strings are copied; the caller vouches that none needs an escape. -/
  | trusted
deriving DecidableEq, Repr, Inhabited

/-- Whether a character cannot stand for itself inside a literal. -/
def needsEscape (c : Char) : Bool := c == '"' || c == '\\' || c.val < 0x20

/-- Whether a byte is that of a character which cannot stand for itself. -/
def byteNeedsEscape (b : UInt8) : Bool := b < 0x20 || b == 0x22 || b == 0x5C

/-- A lower-case hexadecimal digit. -/
def hexDigit (n : Nat) : Char :=
  if n < 10 then Char.ofNat ('0'.toNat + n) else Char.ofNat ('a'.toNat + (n - 10))

/-- The characters that stand for one character inside a literal. -/
def escapeChar (c : Char) : List Char :=
  if c = '"' then ['\\', '"']
  else if c = '\\' then ['\\', '\\']
  else if c = '\x08' then ['\\', 'b']
  else if c = '\t' then ['\\', 't']
  else if c = '\n' then ['\\', 'n']
  else if c = '\x0c' then ['\\', 'f']
  else if c = '\r' then ['\\', 'r']
  else if c.val < 0x20 then
    ['\\', 'u', '0', '0', hexDigit (c.toNat / 16), hexDigit (c.toNat % 16)]
  else [c]

/-- Characters between quotes. -/
def enclosed (body : List Char) : String := String.ofList ('"' :: body ++ ['"'])

/-- The literal of a string. -/
def escaped (s : String) : String := enclosed (s.toList.flatMap escapeChar)

/-- The string between quotes, copied as it is. -/
def bare (s : String) : String := enclosed s.toList

/-- The literal of a string; a string that needs no escape, or is trusted to
need none, is copied. -/
def literal (escaping : Escaping) (s : String) : String :=
  if escaping = .trusted || !(Text.bytes s).any byteNeedsEscape then bare s else escaped s

/-! ## Bytes and characters -/

/-- The test on bytes, by their numbers. -/
theorem byteNeedsEscape_ofNat {n : Nat} (h : n < 0x100) :
    byteNeedsEscape (UInt8.ofNat n) = decide (n < 0x20 ∨ n = 0x22 ∨ n = 0x5C) := by
  have hValue : (UInt8.ofNat n).toNat = n := by
    rw [UInt8.toNat_ofNat']
    exact Nat.mod_eq_of_lt h
  rw [Bool.eq_iff_iff]
  simp only [byteNeedsEscape, Bool.or_eq_true, beq_iff_eq, decide_eq_true_eq,
    UInt8.lt_iff_toNat_lt, ← UInt8.toNat_inj, hValue, UInt8.reduceToNat, or_assoc]

/-- The test on characters, by their numbers. -/
theorem needsEscape_eq (c : Char) :
    needsEscape c = decide (c.toNat < 0x20 ∨ c.toNat = 0x22 ∨ c.toNat = 0x5C) := by
  have hLow : c.val < 0x20 ↔ c.toNat < 0x20 := UInt32.lt_iff_toNat_lt
  have hQuote : c = '"' ↔ c.toNat = 0x22 := by rw [← Char.toNat_inj]; rfl
  have hBack : c = '\\' ↔ c.toNat = 0x5C := by rw [← Char.toNat_inj]; rfl
  rw [Bool.eq_iff_iff]
  simp only [needsEscape, Bool.or_eq_true, beq_iff_eq, decide_eq_true_eq, hLow, hQuote, hBack]
  omega

/-- The bytes of a character tell whether it needs an escape: only those of
an ASCII character are ASCII. -/
theorem any_utf8EncodeChar_needsEscape (c : Char) :
    (String.utf8EncodeChar c).any byteNeedsEscape = needsEscape c := by
  have hRange : c.toNat < 0x110000 := by
    rcases c.valid with hLow | hHigh
    · exact Nat.lt_trans hLow (by decide)
    · exact hHigh.2
  have hFar (n : Nat) (hn : 0x80 ≤ n ∧ n < 0x100) : byteNeedsEscape (UInt8.ofNat n) = false := by
    rw [byteNeedsEscape_ofNat hn.2]
    exact decide_eq_false (by omega)
  have hValue : c.val.toNat = c.toNat := rfl
  rw [needsEscape_eq]
  unfold String.utf8EncodeChar
  rw [hValue]
  generalize c.toNat = v at hRange
  dsimp only
  split
  · rw [List.any_cons, List.any_nil, Bool.or_false, byteNeedsEscape_ofNat (by omega)]
  · -- the character is no ASCII, and each of its bytes has the highest bit set
    rw [decide_eq_false (by omega)]
    split
    · simp only [List.any_cons, List.any_nil, Bool.or_false, Bool.or_eq_false_iff]
      exact ⟨hFar _ (by omega), hFar _ (by omega)⟩
    split
    · simp only [List.any_cons, List.any_nil, Bool.or_false, Bool.or_eq_false_iff]
      exact ⟨hFar _ (by omega), hFar _ (by omega), hFar _ (by omega)⟩
    · simp only [List.any_cons, List.any_nil, Bool.or_false, Bool.or_eq_false_iff]
      exact ⟨hFar _ (by omega), hFar _ (by omega), hFar _ (by omega), hFar _ (by omega)⟩

/-- The bytes of a string tell whether one of its characters needs an
escape. -/
theorem any_bytes_needsEscape (s : String) :
    (Text.bytes s).any byteNeedsEscape = s.toList.any needsEscape := by
  rw [Text.bytes, List.any_flatMap]
  exact congrArg (s.toList.any ·) (funext any_utf8EncodeChar_needsEscape)

/-! ## Copying is escaping where nothing needs an escape -/

/-- A character that needs no escape stands for itself. -/
theorem escapeChar_of_not_needsEscape {c : Char} (h : needsEscape c = false) :
    escapeChar c = [c] := by
  simp only [needsEscape, Bool.or_eq_false_iff, beq_eq_false_iff_ne, ne_eq,
    decide_eq_false_iff_not] at h
  obtain ⟨⟨hquote, hback⟩, hlow⟩ := h
  have above : ∀ d : Char, d.val < 0x20 → c ≠ d := fun d hd e => hlow (e ▸ hd)
  simp [escapeChar, hquote, hback, hlow, above '\x08' (by decide), above '\t' (by decide),
    above '\n' (by decide), above '\x0c' (by decide), above '\r' (by decide)]

/-- A string that needs no escape is its own body. -/
theorem flatMap_escapeChar {cs : List Char} (h : cs.any needsEscape = false) :
    cs.flatMap escapeChar = cs := by
  induction cs with
  | nil => rfl
  | cons c rest ih =>
    simp only [List.any_cons, Bool.or_eq_false_iff] at h
    simp [escapeChar_of_not_needsEscape h.1, ih h.2]

/-- Under JSON escaping every string is written as its literal. -/
theorem literal_json (s : String) : literal .json s = escaped s := by
  cases h : s.toList.any needsEscape with
  | true => simp [literal, any_bytes_needsEscape, h]
  | false => simp [literal, any_bytes_needsEscape, h, bare, escaped, flatMap_escapeChar h]

end JsonStencil.Json
