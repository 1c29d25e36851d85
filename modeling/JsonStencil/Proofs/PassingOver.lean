import JsonStencil.Proofs.ReadingBack

/-!
# Passing over values

A value that nobody will use is passed over by rules of its own: its numbers
may be of any size, the units of its escapes need not pair and it may be nested
to any depth. Whatever can be read can be passed over, too, and both ways end
in the same place. The two sides count their steps differently, one by
characters and levels and the other by bytes, so along with that it is shown
that every reading leaves fewer bytes than there were, which is what the steps
of the other side are bounded by.

Main definitions:

* `Json.Cursor.left` — how many bytes are left.
* `Json.Passes` — passing over what has been read.

Main results:

* `skipString_of_readString` / `skipNumber_of_readNumber` — leaves.
* `skipItems_of_readItems` / `skipMembers_of_readMembers` — between brackets.
* `skipValue_of_readValue` — any value.
-/

namespace JsonStencil.Json

/-! ## Bytes that are left -/

namespace Cursor

/-- The number of bytes that are left. -/
def left (c : Cursor) : Nat := c.rest.length

variable {c : Cursor} {b : UInt8}

/-- Going on leaves no more bytes. -/
theorem left_advance_le (c : Cursor) : c.advance.left ≤ c.left := by
  obtain ⟨rest, place⟩ := c
  cases rest with
  | nil => exact Nat.le_refl _
  | cons b rest => exact Nat.le_succ _

/-- Passing a byte that is there leaves one less. -/
theorem left_advance (h : c.peek = some b) : c.advance.left + 1 = c.left := by
  obtain ⟨rest, place⟩ := c
  cases rest with
  | nil => cases h
  | cons b rest => rfl

/-- Nor does going on by several bytes. -/
theorem left_advanceBy_le (n : Nat) (c : Cursor) : (c.advanceBy n).left ≤ c.left := by
  induction n generalizing c with
  | zero => exact Nat.le_refl _
  | succ n ih => exact Nat.le_trans (ih c.advance) (left_advance_le c)

/-- By as many bytes as there are, so many fewer are left. -/
theorem left_advanceBy {n : Nat} (h : n ≤ c.left) : (c.advanceBy n).left + n = c.left := by
  induction n generalizing c with
  | zero => rfl
  | succ n ih =>
    obtain ⟨_ | ⟨b, rest⟩, place⟩ := c
    · exact absurd h (Nat.not_succ_le_zero n)
    · have hRest := ih (c := ⟨rest, place.past b⟩) (Nat.le_of_succ_le_succ h)
      exact congrArg Nat.succ hRest

/-- Behind blanks no more bytes are left. -/
theorem left_skipBlanks_le (c : Cursor) : c.skipBlanks.left ≤ c.left := by
  obtain ⟨rest, place⟩ := c
  induction rest generalizing place with
  | nil => exact Nat.le_refl _
  | cons b rest ih =>
    rw [skipBlanks, skipFrom]
    split
    · exact Nat.le_succ_of_le (ih (place.past b))
    · exact Nat.le_refl _

/-- Behind blanks there are none to pass. -/
theorem skipBlanks_skipBlanks (c : Cursor) : c.skipBlanks.skipBlanks = c.skipBlanks := by
  obtain ⟨rest, place⟩ := c
  induction rest generalizing place with
  | nil => rfl
  | cons b rest ih =>
    by_cases hBlank : isBlank b = true
    · have hPast : skipBlanks ⟨b :: rest, place⟩ = skipBlanks ⟨rest, place.past b⟩ := if_pos hBlank
      rw [hPast, ih]
    · have hStays : skipBlanks ⟨b :: rest, place⟩ = ⟨b :: rest, place⟩ := if_neg hBlank
      rw [hStays, hStays]

/-- Nor are there behind digits. -/
theorem left_takeDigits_le (c : Cursor) : c.takeDigits.2.left ≤ c.left := by
  rw [takeDigits, left, List.length_drop]
  exact Nat.sub_le _ _

/-- Behind a digit fewer bytes are left. -/
theorem left_takeDigits_lt (h : c.peek = some b) (hDigit : isDigit b = true) :
    c.takeDigits.2.left < c.left := by
  obtain ⟨rest, place⟩ := c
  cases rest with
  | nil => cases h
  | cons first rest =>
    cases h
    rw [takeDigits, left, left, List.length_drop]
    simp only [List.takeWhile_cons, hDigit, if_true, List.length_cons]
    omega

/-- Nor behind a word. -/
theorem left_readWord_le {word : List UInt8} {behind : Cursor}
    (h : readWord word c = .ok ((), behind)) : behind.left ≤ c.left := by
  induction word generalizing c with
  | nil =>
    cases h
    exact Nat.le_refl _
  | cons expected others ih =>
    rw [readWord] at h
    split at h
    · cases h
    · split at h
      · exact Nat.le_trans (ih h) (left_advance_le c)
      · cases h

end Cursor

open Cursor

variable {c behind : Cursor}

/-- What is passed leaves fewer bytes, and ends behind what has been read. -/
def Passes (passing : Except Fault (Unit × Cursor)) (c behind : Cursor) : Prop :=
  behind.left < c.left ∧ passing = .ok ((), behind)

/-! ## Strings -/

/-- A byte that stands for itself in a string, or for a part of a character. -/
def IsPlain (b : UInt8) : Prop := b ≠ byte '"' ∧ b ≠ byte '\\' ∧ ¬ b < 0x20

/-- A byte of a longer character stands for no mark of its own. -/
theorem isPlain_of_le {b : UInt8} (h : 0x80 ≤ b) : IsPlain b := by
  refine ⟨?_, ?_, fun hLow => ?_⟩
  · rintro rfl
    exact absurd h (by decide)
  · rintro rfl
    exact absurd h (by decide)
  · rw [UInt8.le_iff_toNat_le] at h
    rw [UInt8.lt_iff_toNat_lt] at hLow
    exact absurd (Nat.lt_of_le_of_lt h hLow) (by decide)

/-- The bytes of a character behind its first one stand for no others. -/
theorem isPlain_of_decodeChar? {b : UInt8} {rest : List UInt8} {character : Char} {size : Nat}
    (h : Text.decodeChar? (b :: rest) = some (character, size)) :
    ∃ others, size = others + 1 ∧ others ≤ rest.length ∧ ∀ x ∈ rest.take others, IsPlain x := by
  have hContinues {x : UInt8} (hx : Text.isContinuation x = true) : IsPlain x := by
    rw [Text.isContinuation, Bool.and_eq_true, decide_eq_true_eq] at hx
    exact isPlain_of_le hx.1
  -- the second byte may have less room, and is above all marks in any case
  have hThree {a x : UInt8} (hx : Text.fitsThree a x = true) : IsPlain x := by
    unfold Text.fitsThree at hx
    split at hx
    · rw [Bool.and_eq_true, decide_eq_true_eq] at hx
      exact isPlain_of_le (UInt8.le_trans (by decide) hx.1)
    · split at hx
      · rw [Bool.and_eq_true, decide_eq_true_eq] at hx
        exact isPlain_of_le hx.1
      · rw [Bool.and_eq_true] at hx
        exact hContinues hx.2
  have hFour {a x : UInt8} (hx : Text.fitsFour a x = true) : IsPlain x := by
    unfold Text.fitsFour at hx
    split at hx
    · rw [Bool.and_eq_true, decide_eq_true_eq] at hx
      exact isPlain_of_le (UInt8.le_trans (by decide) hx.1)
    · split at hx
      · rw [Bool.and_eq_true, decide_eq_true_eq] at hx
        exact isPlain_of_le hx.1
      · rw [Bool.and_eq_true] at hx
        exact hContinues hx.2
  -- one case for each length of a character
  rw [Text.decodeChar?.eq_def] at h
  dsimp only at h
  split at h
  · cases h
    exact ⟨0, rfl, Nat.zero_le _, by simp⟩
  split at h
  · cases h
  split at h
  · next hFits =>
    cases h
    rw [Bool.and_eq_true] at hFits
    exact ⟨1, rfl, by simp, by simpa using hContinues hFits.2⟩
  split at h
  · cases h
  split at h
  · next hFits =>
    cases h
    rw [Bool.and_eq_true] at hFits
    exact ⟨2, rfl, by simp, by simpa using ⟨hThree hFits.1, hContinues hFits.2⟩⟩
  split at h
  · cases h
  split at h
  · next hFits =>
    cases h
    rw [Bool.and_eq_true, Bool.and_eq_true] at hFits
    exact ⟨3, rfl, by simp,
      by simpa using ⟨hFour hFits.1.1, hContinues hFits.1.2, hContinues hFits.2⟩⟩
  · cases h

/-- Plain bytes are passed one by one. -/
theorem skipChars_plain (n fuel : Nat) {c : Cursor} (h : n ≤ c.left)
    (hPlain : ∀ b ∈ c.rest.take n, IsPlain b) :
    skipChars (fuel + n) c = skipChars fuel (c.advanceBy n) := by
  induction n generalizing c with
  | zero => rfl
  | succ n ih =>
    obtain ⟨rest, place⟩ := c
    cases rest with
    | nil => exact absurd h (Nat.not_succ_le_zero n)
    | cons b rest =>
      rw [List.take_succ_cons, List.forall_mem_cons] at hPlain
      obtain ⟨⟨hQuote, hBack, hLow⟩, hOthers⟩ := hPlain
      -- a plain byte is passed in one turn
      have hNext : skipChars (fuel + (n + 1)) ⟨b :: rest, place⟩ =
          skipChars (fuel + n) ⟨rest, place.past b⟩ := by
        rw [← Nat.add_assoc, skipChars]
        simp only [peek, List.head?_cons, if_neg hQuote, if_neg hBack, if_neg hLow, advance]
      rw [hNext, ih (c := ⟨rest, place.past b⟩) (Nat.le_of_succ_le_succ h) hOthers]
      rfl

/-- Behind four hex digits no more bytes are left. -/
theorem left_readHex_le {n : Nat} (h : readHex c = .ok (n, behind)) : behind.left ≤ c.left := by
  unfold readHex at h
  split at h
  · cases h
  · split at h
    · cases h
      exact left_advanceBy_le 4 c
    · cases h

/-- Between the two units of a pair stands the byte that is expected. -/
theorem readBetween_inv {expected : Char} (h : readBetween expected c = .ok ((), behind)) :
    c.peek = some (byte expected) ∧ behind = c.advance := by
  unfold readBetween at h
  split at h
  · cases h
  · next b hPeek =>
    split at h
    · next hSame =>
      cases h
      exact ⟨hSame ▸ hPeek, rfl⟩
    · cases h

/-- An escape by number is passed with its digits. -/
theorem skipEscape_of_readHex {n : Nat} (hUnit : c.peek = some (byte 'u'))
    (h : readHex c.advance = .ok (n, behind)) : skipEscape c = .ok ((), behind) := by
  have hNoLetter : (letterEscape? (byte 'u')).isSome = false := by decide
  simp only [skipEscape, hUnit, hNoLetter, Bool.false_eq_true, if_false, if_true, h]
  rfl

/-- An escape that is read is passed, or is passed as two that stand side by
side. -/
theorem skipEscape_of_readEscape {character : Char} (h : readEscape c = .ok (character, behind)) :
    skipEscape c = .ok ((), behind) ∧ behind.left ≤ c.left ∨
      ∃ between, skipEscape c = .ok ((), between) ∧ between.left ≤ c.left ∧
        between.peek = some (byte '\\') ∧ skipEscape between.advance = .ok ((), behind) ∧
        behind.left ≤ between.advance.left := by
  rw [readEscape] at h
  split at h
  · cases h
  · next b hPeek =>
    split at h
    · next letter hLetter =>
      cases h
      refine Or.inl ⟨?_, left_advance_le c⟩
      simp only [skipEscape, hPeek, hLetter, Option.isSome_some, if_true]
    · -- a letter of its own, a unit by number, or neither
      split at h
      · next hUnit =>
        rw [hUnit] at hPeek
        obtain ⟨⟨unit, first⟩, hFirst, hMore⟩ := bind_inv h
        have hPassed := skipEscape_of_readHex hPeek hFirst
        have hLeft := Nat.le_trans (left_readHex_le hFirst) (left_advance_le c)
        dsimp only at hMore
        split at hMore
        · cases hMore
        · split at hMore
          · cases hMore
            exact Or.inl ⟨hPassed, hLeft⟩
          · -- the second unit of a pair is an escape of its own
            obtain ⟨⟨_, second⟩, hBack, hMore⟩ := bind_inv hMore
            obtain ⟨⟨_, third⟩, hLetter, hMore⟩ := bind_inv hMore
            obtain ⟨hBackPeek, rfl⟩ := readBetween_inv hBack
            obtain ⟨hLetterPeek, rfl⟩ := readBetween_inv hLetter
            obtain ⟨⟨other, last⟩, hLast, hEnd⟩ := bind_inv hMore
            dsimp only at hEnd
            split at hEnd
            · obtain rfl : last = behind := congrArg Prod.snd (Except.ok.inj hEnd)
              exact Or.inr ⟨first, hPassed, hLeft, hBackPeek,
                skipEscape_of_readHex hLetterPeek hLast,
                Nat.le_trans (left_readHex_le hLast) (left_advance_le _)⟩
            · cases hEnd
      · cases h

/-- An escape takes a step for its backslash. -/
theorem skipChars_escape {after : Cursor} (hBack : c.peek = some (byte '\\'))
    (h : skipEscape c.advance = .ok ((), after)) (steps : Nat) :
    skipChars (steps + 1) c = skipChars steps after := by
  have hQuote : byte '\\' ≠ byte '"' := by decide
  simp only [skipChars, hBack, if_neg hQuote, if_true, h]
  rfl

/-- Characters that are read are passed, given a step for each byte. -/
theorem skipChars_of_readChars {fuel : Nat} {stray : Option Nat} {characters : List Char}
    (h : readChars fuel stray c = .ok (characters, behind)) :
    behind.left < c.left ∧ ∀ steps, c.left < steps → skipChars steps c = .ok ((), behind) := by
  induction fuel generalizing stray c characters with
  | zero => cases h
  | succ fuel ih =>
    rw [readChars.eq_def] at h
    dsimp only at h
    split at h
    · cases h
    next b hPeek =>
    have hLeft := left_advance hPeek
    split at h
    · -- the closing quote
      next hQuote =>
      split at h
      · cases h
      · cases h
        refine ⟨by omega, fun steps hSteps => ?_⟩
        obtain ⟨more, rfl⟩ := Nat.exists_eq_succ_of_ne_zero (Nat.ne_zero_of_lt hSteps)
        simp only [skipChars, hPeek, hQuote, if_true]
    next hQuote =>
    split at h
    · -- an escape
      next hBack =>
      rw [hBack] at hPeek
      obtain ⟨⟨character, after⟩, hEscape, hMore⟩ := bind_inv h
      obtain ⟨⟨others, last⟩, hOthers, hEnd⟩ := bind_inv hMore
      obtain rfl : last = behind := congrArg Prod.snd (Except.ok.inj hEnd)
      obtain ⟨hBehind, hPass⟩ := ih hOthers
      dsimp only at hBehind hPass
      rcases skipEscape_of_readEscape hEscape with
        ⟨hOne, hAfter⟩ | ⟨between, hFirst, hBetween, hAgain, hSecond, hAfter⟩
      · refine ⟨by omega, fun steps hSteps => ?_⟩
        obtain ⟨more, rfl⟩ : ∃ more, steps = more + 1 := ⟨steps - 1, by omega⟩
        rw [skipChars_escape hPeek hOne]
        exact hPass more (by omega)
      · have hNext := left_advance hAgain
        refine ⟨by omega, fun steps hSteps => ?_⟩
        obtain ⟨more, rfl⟩ : ∃ more, steps = more + 1 + 1 := ⟨steps - 2, by omega⟩
        rw [skipChars_escape hPeek hFirst, skipChars_escape hAgain hSecond]
        exact hPass more (by omega)
    next hBack =>
    split at h
    · cases h
    next hLow =>
    have hFirst : IsPlain b := ⟨hQuote, hBack, hLow⟩
    -- as many plain bytes are passed as the reader has taken
    have hRun {n : Nat} {next : Option Nat} {others : List Char} (hSome : 0 < n) (hn : n ≤ c.left)
        (hPlain : ∀ x ∈ c.rest.take n, IsPlain x)
        (hRead : readChars fuel next (c.advanceBy n) = .ok (others, behind)) :
        behind.left < c.left ∧
          ∀ steps, c.left < steps → skipChars steps c = .ok ((), behind) := by
      obtain ⟨hBehind, hPass⟩ := ih hRead
      have hBytes := left_advanceBy hn
      refine ⟨by omega, fun steps hSteps => ?_⟩
      obtain ⟨more, rfl⟩ : ∃ more, steps = more + n := ⟨steps - n, by omega⟩
      rw [skipChars_plain n more hn hPlain]
      exact hPass more (by omega)
    obtain ⟨_ | ⟨first, rest⟩, place⟩ := c
    · cases hPeek
    obtain rfl : first = b := Option.some.inj hPeek
    split at h
    · next character size hDecoded =>
      obtain ⟨⟨others, last⟩, hOthers, hEnd⟩ := bind_inv h
      cases hEnd
      obtain ⟨more, rfl, hMore, hPlain⟩ := isPlain_of_decodeChar? hDecoded
      refine hRun (Nat.succ_pos more) (Nat.succ_le_succ hMore) ?_ hOthers
      rw [List.take_succ_cons]
      exact List.forall_mem_cons.mpr ⟨hFirst, hPlain⟩
    · -- a byte that is no part of a character
      refine hRun Nat.one_pos (Nat.succ_le_succ (Nat.zero_le _)) ?_ h
      exact List.forall_mem_cons.mpr ⟨hFirst, by simp⟩

/-- A string that is read is passed. -/
theorem skipString_of_readString {s : String} (h : readString c = .ok (s, behind)) :
    Passes (skipString c) c behind := by
  obtain ⟨⟨characters, last⟩, hRead, hEnd⟩ := bind_inv h
  cases hEnd
  obtain ⟨hBehind, hPass⟩ := skipChars_of_readChars hRead
  exact ⟨hBehind, hPass _ (Nat.lt_succ_self _)⟩

/-! ## Numbers -/

/-- Making a number reads nothing. -/
theorem floatNumber_inv {negative : Bool} {significand : Nat} {exponent : Int} {n : Number}
    (h : floatNumber negative significand exponent c = .ok (n, behind)) : behind = c := by
  unfold floatNumber at h
  split at h
  · cases h
    rfl
  · cases h

/-- Behind a sign, if there is one, no more bytes are left. -/
theorem left_takeSign_le (c : Cursor) : (takeSign c).2.left ≤ c.left := by
  unfold takeSign
  split
  · exact left_advance_le c
  · split
    · exact left_advance_le c
    · exact Nat.le_refl _

/-- An exponent that is read is passed, however large it is. -/
theorem skipExponent_of_readExponent {negative : Bool} {significand : Nat} {exponent : Int}
    {n : Number} (h : readExponent negative significand exponent c = .ok (n, behind)) :
    behind.left ≤ c.left ∧ skipExponent c = .ok ((), behind) := by
  unfold readExponent at h
  dsimp only at h
  split at h
  · cases h
  next b hPeek =>
  split at h
  · cases h
  next hDigit =>
  obtain rfl : behind = (takeSign c).2.takeDigits.2 := by
    -- an exponent that is out of bounds still ends behind its digits
    split at h
    · split at h
      · cases h
      · cases h
        rfl
    · exact floatNumber_inv h
  have hDigit : isDigit b = true := by simpa using hDigit
  refine ⟨Nat.le_trans (left_takeDigits_le _) (left_takeSign_le c), ?_⟩
  simp only [skipExponent, hPeek, hDigit, if_true]

/-- So is what stands behind the digits of a number. -/
theorem readScale_inv {negative : Bool} {significand : Nat} {exponent : Int} {n : Number}
    (h : readScale negative significand exponent c = .ok (n, behind)) :
    behind.left ≤ c.left ∧
      (if opensExponent c.peek then skipExponent c.advance else .ok ((), c)) =
        .ok ((), behind) := by
  unfold readScale at h
  -- with an exponent and without one
  split at h
  · next hOpens =>
    obtain ⟨hLeft, hPass⟩ := skipExponent_of_readExponent h
    exact ⟨Nat.le_trans hLeft (left_advance_le c), by rw [if_pos hOpens, hPass]⟩
  · next hNone =>
    obtain rfl := floatNumber_inv h
    exact ⟨Nat.le_refl _, by rw [if_neg hNone]⟩

/-- A number that is read is passed. -/
theorem skipNumber_of_readNumber {negative : Bool} {n : Number}
    (h : readNumber negative c = .ok (n, behind)) : Passes (skipNumber c) c behind := by
  unfold readNumber at h
  split at h
  · cases h
  next b hPeek =>
  split at h
  · cases h
  next hDigit =>
  have hDigit : isDigit b = true := by simpa using hDigit
  have hLeft := left_takeDigits_lt hPeek hDigit
  dsimp only at h
  split at h
  · cases h
  -- no digit stands behind a leading zero
  next hZero =>
  unfold Passes skipNumber
  simp only [hPeek, hDigit, Bool.not_true, Bool.false_eq_true, if_false, if_neg hZero]
  split at h
  · -- a fraction
    next hPoint =>
    unfold readFraction at h
    dsimp only at h
    split at h
    · split at h <;> cases h
    next hSome =>
    obtain ⟨hBehind, hPass⟩ := readScale_inv h
    -- the point and its digits take some bytes, and so does the exponent
    have hPlaces := Nat.le_trans (left_takeDigits_le c.takeDigits.2.advance) (left_advance_le _)
    refine ⟨by omega, ?_⟩
    rw [if_pos hPoint, if_neg hSome]
    exact hPass
  next hNoPoint =>
  rw [if_neg hNoPoint]
  split at h
  · obtain ⟨hBehind, hPass⟩ := readScale_inv h
    exact ⟨by omega, hPass⟩
  · next hWhole =>
    cases h
    exact ⟨hLeft, if_neg fun hOpens => hWhole (Or.inl hOpens)⟩

/-! ## Between brackets -/

/-- What comes next in an array: its closing bracket, its first item, or a
comma and another item. -/
theorem moreItems_inv {first more : Bool} (h : moreItems first c = .ok (more, behind)) :
    ∃ b, c.skipBlanks.peek = some b ∧
      (more = false ∧ b = byte ']' ∧ behind = c.skipBlanks ∨
        more = true ∧ b ≠ byte ']' ∧ (first = true ∧ behind = c.skipBlanks ∨
          first = false ∧ b = byte ',' ∧ behind = c.skipBlanks.advance.skipBlanks)) := by
  unfold moreItems at h
  dsimp only at h
  split at h
  · cases h
  next b hPeek =>
  refine ⟨b, hPeek, ?_⟩
  -- the closing bracket, the first item, or a comma and another one
  split at h
  · next hClose =>
    cases h
    exact Or.inl ⟨rfl, hClose, rfl⟩
  next hOpen =>
  split at h
  · next hFirst =>
    cases h
    exact Or.inr ⟨rfl, hOpen, Or.inl ⟨hFirst, rfl⟩⟩
  next hLater =>
  split at h
  · next hComma =>
    split at h
    · cases h
    · split at h
      · cases h
      · cases h
        exact Or.inr ⟨rfl, hOpen, Or.inr ⟨by simpa using hLater, hComma, rfl⟩⟩
  · cases h

/-- What comes next in an object: its closing brace, or the quote that opens
a key, behind a comma if it is not the first one. -/
theorem moreMembers_inv {first more : Bool} (h : moreMembers first c = .ok (more, behind)) :
    ∃ b, c.skipBlanks.peek = some b ∧
      (more = false ∧ b = byte '\x7d' ∧ behind = c.skipBlanks ∨
        more = true ∧ b ≠ byte '\x7d' ∧ ∃ quote, quote.peek = some (byte '"') ∧
          behind = quote.advance ∧ (first = true ∧ quote = c.skipBlanks ∨
            first = false ∧ b = byte ',' ∧ quote = c.skipBlanks.advance.skipBlanks)) := by
  unfold moreMembers at h
  dsimp only at h
  split at h
  · cases h
  next b hPeek =>
  refine ⟨b, hPeek, ?_⟩
  -- the closing brace, the first member, or a comma and another one
  split at h
  · next hClose =>
    cases h
    exact Or.inl ⟨rfl, hClose, rfl⟩
  next hOpen =>
  split at h
  · next hFirst =>
    split at h
    · next hQuote =>
      cases h
      exact Or.inr ⟨rfl, hOpen, _, hQuote ▸ hPeek, rfl, Or.inl ⟨hFirst, rfl⟩⟩
    · cases h
  next hLater =>
  split at h
  · next hComma =>
    split at h
    · cases h
    next d hNext =>
    split at h
    · next hQuote =>
      cases h
      exact Or.inr ⟨rfl, hOpen, _, hQuote ▸ hNext, rfl,
        Or.inr ⟨by simpa using hLater, hComma, rfl⟩⟩
    · split at h <;> cases h
  · cases h

/-- Nor behind a colon. -/
theorem left_readColon_le (h : readColon c = .ok ((), behind)) : behind.left ≤ c.left := by
  unfold readColon at h
  dsimp only at h
  split at h
  · cases h
  · split at h
    · cases h
      exact Nat.le_trans (left_advance_le _) (left_skipBlanks_le c)
    · cases h

/-- A key that is read is passed together with its quotes and its colon,
wherever the blanks before it begin. -/
theorem skipKey_of_readString {quote after : Cursor} {key : String}
    (hQuote : quote.peek = some (byte '"')) (hKey : readString quote.advance = .ok (key, after))
    (hColon : readColon after = .ok ((), behind)) (hBlanks : c.skipBlanks = quote) :
    behind.left < quote.left ∧ skipKey c = .ok ((), behind) := by
  obtain ⟨hLeft, hPass⟩ := skipString_of_readString hKey
  have hAfter := left_readColon_le hColon
  have hStart := left_advance_le quote
  refine ⟨by omega, ?_⟩
  simp only [skipKey, hBlanks, hQuote, if_true, hPass]
  exact hColon

section Loops

variable {α : Type} {item : Cursor → Except Fault (α × Cursor)}
  {skip : Cursor → Except Fault (Unit × Cursor)} {bound : Nat}
  (hItem : ∀ {c behind : Cursor} {value : α}, c.left ≤ bound → item c = .ok (value, behind) →
    behind.left < c.left ∧ ∀ start : Cursor, start.skipBlanks = c.skipBlanks →
      skip start = .ok ((), behind))
include hItem

/-- Items that can be passed one by one are passed together. -/
theorem skipItems_of_readItems {fuel position : Nat} {items : List α} (hBound : c.left ≤ bound)
    (h : readItems item fuel position c = .ok (items, behind)) :
    Passes (skipItems skip fuel (position == 0) c) c behind := by
  -- both loops count items with the same fuel; the bytes left bound the values inside
  induction fuel generalizing position c items with
  | zero => cases h
  | succ fuel ih =>
    obtain ⟨⟨more, between⟩, hMore, hRest⟩ := bind_inv h
    obtain ⟨b, hPeek, ⟨rfl, hClose, rfl⟩ | ⟨rfl, hOpen, hNext⟩⟩ := moreItems_inv hMore
    all_goals
      have hBlanks := left_skipBlanks_le c
      have hByte := left_advance hPeek
    · cases hRest
      refine ⟨by omega, ?_⟩
      simp only [skipItems, hPeek, hClose, if_true]
    · obtain ⟨⟨value, after⟩, hValue, hRest⟩ := bind_inv hRest
      obtain ⟨⟨others, last⟩, hOthers, hEnd⟩ := bind_inv hRest
      obtain rfl : last = behind := congrArg Prod.snd (Except.ok.inj hEnd)
      have hValue : item between = .ok (value, after) := mapError_inv hValue
      have hBetween : between.left ≤ c.left := by
        rcases hNext with ⟨-, rfl⟩ | ⟨-, -, rfl⟩
        · exact hBlanks
        · exact Nat.le_trans (left_skipBlanks_le _) (Nat.le_trans (left_advance_le _) hBlanks)
      obtain ⟨hLeft, hPass⟩ := hItem (Nat.le_trans hBetween hBound) hValue
      obtain ⟨hBehind, hPassed⟩ : Passes (skipItems skip fuel false after) after last :=
        ih (by omega) hOthers
      refine ⟨by omega, ?_⟩
      -- the first item stands behind blanks, any other behind a comma too
      rcases hNext with ⟨hFirst, rfl⟩ | ⟨hFirst, hComma, rfl⟩
      · simp only [skipItems, hPeek, if_neg hOpen, hFirst, if_true,
          hPass c.skipBlanks rfl]
        exact hPassed
      · have hAfter := hPass c.skipBlanks.advance (skipBlanks_skipBlanks _).symm
        rw [hComma] at hPeek hOpen
        simp only [skipItems, hPeek, if_neg hOpen, hFirst, Bool.false_eq_true, if_false, if_true,
          hAfter]
        exact hPassed

/-- So are members. -/
theorem skipMembers_of_readMembers {fuel : Nat} {first : Bool} {members : List (String × α)}
    (hBound : c.left ≤ bound) (h : readMembers item fuel first c = .ok (members, behind)) :
    Passes (skipMembers skip fuel first c) c behind := by
  induction fuel generalizing first c members with
  | zero => cases h
  | succ fuel ih =>
    obtain ⟨⟨key?, between⟩, hKey, hRest⟩ := bind_inv h
    obtain ⟨⟨more, opened⟩, hMore, hRead⟩ := bind_inv hKey
    obtain ⟨b, hPeek, ⟨rfl, hClose, rfl⟩ | ⟨rfl, hOpen, quote, hQuote, rfl, hNext⟩⟩ :=
      moreMembers_inv (mapError_inv hMore)
    all_goals
      have hBlanks := left_skipBlanks_le c
      have hByte := left_advance hPeek
    · cases hRead
      cases hRest
      refine ⟨by omega, ?_⟩
      simp only [skipMembers, hPeek, hClose, if_true]
    · obtain ⟨⟨key, closed⟩, hString, hEnd⟩ := bind_inv hRead
      cases hEnd
      obtain ⟨⟨_, colon⟩, hColon, hRest⟩ := bind_inv hRest
      obtain ⟨⟨value, after⟩, hValue, hRest⟩ := bind_inv hRest
      obtain ⟨⟨others, last⟩, hOthers, hEnd⟩ := bind_inv hRest
      obtain rfl : last = behind := congrArg Prod.snd (Except.ok.inj hEnd)
      -- behind the comma, if there is one, the quote of the key comes next
      have hStart : quote.left ≤ c.left ∧ (if first then c.skipBlanks
          else c.skipBlanks.advance).skipBlanks = quote ∧ (first = true ∨ b = byte ',') := by
        rcases hNext with ⟨rfl, rfl⟩ | ⟨rfl, hComma, rfl⟩
        · exact ⟨hBlanks, skipBlanks_skipBlanks c, Or.inl rfl⟩
        · exact ⟨Nat.le_trans (left_skipBlanks_le _) (Nat.le_trans (left_advance_le _) hBlanks),
            rfl, Or.inr hComma⟩
      obtain ⟨hQuoteLeft, hSkipped, hComma⟩ := hStart
      obtain ⟨hColonLeft, hKeyPassed⟩ :=
        skipKey_of_readString hQuote (mapError_inv hString) hColon hSkipped
      obtain ⟨hLeft, hPass⟩ := hItem (Nat.le_trans (by omega) hBound) (mapError_inv hValue)
      obtain ⟨hBehind, hPassed⟩ := ih (by omega) hOthers
      refine ⟨by omega, ?_⟩
      simp only [skipMembers, hPeek, if_neg hOpen, if_pos hComma, hKeyPassed]
      show (skip colon).bind _ = _
      rw [hPass colon rfl]
      exact hPassed

end Loops

/-! ## Values -/

/-- A word that is read is passed, whatever it stands for. -/
theorem readLiteral_inv {α β : Type} {others : String} {value found : α} (passed : β)
    (h : readLiteral others value c = .ok (found, behind)) :
    behind.left ≤ c.advance.left ∧ readLiteral others passed c = .ok (passed, behind) := by
  obtain ⟨⟨_, last⟩, hWord, hEnd⟩ := map_inv h
  cases hEnd
  refine ⟨left_readWord_le hWord, ?_⟩
  rw [readLiteral, hWord]
  rfl

/-- A value that is read leaves fewer bytes and is passed, wherever the blanks
before it begin, given a step for each byte. -/
theorem skipNested_of_readValue {depth : Nat} {j : Json}
    (h : readValue depth c = .ok (j, behind)) :
    behind.left < c.left ∧ ∀ steps, c.left < steps → ∀ start : Cursor,
      start.skipBlanks = c.skipBlanks → skipNested steps start = .ok ((), behind) := by
  induction depth using Nat.strongRecOn generalizing c behind j with
  | ind depth ih =>
    have hBlanks := left_skipBlanks_le c
    obtain ⟨b, hByte⟩ := (isRead_of_readValue h).peek
    have hByte := left_advance hByte
    -- it is enough to say what passing does on looking at the same byte
    have hGo {passing : Nat → Except Fault (Unit × Cursor)} (hLeft : behind.left < c.left)
        (hPass : ∀ more, c.left ≤ more → passing more = .ok ((), behind))
        (hSame : ∀ more start, start.skipBlanks = c.skipBlanks →
          skipNested (more + 1) start = passing more) :
        behind.left < c.left ∧ ∀ steps, c.left < steps → ∀ start : Cursor,
          start.skipBlanks = c.skipBlanks → skipNested steps start = .ok ((), behind) := by
      refine ⟨hLeft, fun steps hSteps start hStart => ?_⟩
      obtain ⟨more, rfl⟩ : ∃ more, steps = more + 1 := ⟨steps - 1, by omega⟩
      rw [hSame more start hStart, hPass more (by omega)]
    -- values inside are read with a level less, and passed with a step less
    have hInside {deeper : Nat} (hDepth : deeper < depth) {more : Nat} (hMore : c.left ≤ more)
        {inner after : Cursor} {value : Json} (hInner : inner.left ≤ c.skipBlanks.advance.left)
        (hRead : readValue deeper inner = .ok (value, after)) :
        after.left < inner.left ∧ ∀ start : Cursor, start.skipBlanks = inner.skipBlanks →
          skipNested more start = .ok ((), after) := by
      obtain ⟨hLeft, hPass⟩ := ih deeper hDepth hRead
      exact ⟨hLeft, hPass more (by omega)⟩
    -- by the byte that the value begins with
    cases isRead_of_readValue h with
    | null hPeek hRead | bool_true hPeek hRead | bool_false hPeek hRead =>
      obtain ⟨hLeft, hPass⟩ := readLiteral_inv () hRead
      refine hGo (by omega) (fun _ _ => hPass) fun more start hStart => ?_
      simp only [skipNested, hStart, hPeek]
      rfl
    | string hPeek hRead =>
      obtain ⟨hLeft, hPass⟩ := skipString_of_readString hRead
      refine hGo (by omega) (fun _ _ => hPass) fun more start hStart => ?_
      simp only [skipNested, hStart, hPeek]
      rfl
    | negative hPeek hRead =>
      obtain ⟨hLeft, hPass⟩ := skipNumber_of_readNumber hRead
      refine hGo (by omega) (fun _ _ => hPass) fun more start hStart => ?_
      simp only [skipNested, hStart, hPeek]
      rfl
    | @digits _ _ _ _ b hPeek hDigit hRead =>
      have hOther : b ≠ byte 'n' ∧ b ≠ byte 't' ∧ b ≠ byte 'f' ∧ b ≠ byte '"' ∧ b ≠ byte '-' :=
        ⟨ne_of_isDigit hDigit (by decide), ne_of_isDigit hDigit (by decide),
          ne_of_isDigit hDigit (by decide), ne_of_isDigit hDigit (by decide),
          ne_of_isDigit hDigit (by decide)⟩
      obtain ⟨hLeft, hPass⟩ := skipNumber_of_readNumber hRead
      refine hGo (by omega) (fun _ _ => hPass) fun more start hStart => ?_
      simp only [skipNested, hStart, hPeek, hOther, hDigit, if_true, if_false]
    | array hPeek hRead =>
      have hPass (more : Nat) (hMore : c.left ≤ more) :=
        skipItems_of_readItems (hInside (Nat.lt_succ_self _) hMore) (Nat.le_refl _) hRead
      refine hGo (Nat.lt_of_lt_of_le (hPass _ (Nat.le_refl _)).1 (by omega))
        (fun more hMore => (hPass more hMore).2) fun more start hStart => ?_
      simp only [skipNested, hStart, hPeek]
      rfl
    | object hPeek hRead =>
      have hPass (more : Nat) (hMore : c.left ≤ more) :=
        skipMembers_of_readMembers (hInside (Nat.lt_succ_self _) hMore) (Nat.le_refl _) hRead
      refine hGo (Nat.lt_of_lt_of_le (hPass _ (Nat.le_refl _)).1 (by omega))
        (fun more hMore => (hPass more hMore).2) fun more start hStart => ?_
      simp only [skipNested, hStart, hPeek]
      rfl

/-- Whatever can be read can be passed over, and both end in one place. -/
theorem skipValue_of_readValue {depth : Nat} {j : Json}
    (h : readValue depth c = .ok (j, behind)) : skipValue c = .ok ((), behind) :=
  (skipNested_of_readValue h).2 _ (Nat.lt_succ_self _) c rfl

end JsonStencil.Json
