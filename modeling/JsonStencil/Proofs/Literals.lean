import JsonStencil.Plan.OfSchema
import JsonStencil.Proofs.CompactTexts
import JsonStencil.Proofs.ReadingBack
import JsonStencil.Proofs.UniqueReading

/-!
# Literals delimit themselves

Whether a string is copied or escaped is decided by its bytes, and either way
its literal is written. Inside a literal no character is a control character
and every quote is escaped. A backslash is always written as two, so a run of
them is even up to the next character of the string, and the one backslash in
front of a quote makes it odd: that is how a quote inside is told from the one
that ends the literal, however many backslashes the string itself has there.

A literal is therefore read back as its string, and it ends at the same place
whatever stands behind it: two literals that begin a common text are those of
one string. The labels of different keys are different.

Main definitions:

* `Json.backslashRun` — the backslashes at the end of some characters.

Main results:

* `Json.odd_backslashRun_of_quote` — a quote inside a literal is escaped.
* `Json.literal_delimits` — what a literal is and what it tells.
-/

namespace JsonStencil.Json

open Grammar

/-! ## Runs of backslashes -/

/-- The number of backslashes at the end of some characters. -/
def backslashRun (cs : List Char) : Nat := (cs.reverse.takeWhile (· == '\\')).length

/-- A backslash makes the run longer. -/
theorem backslashRun_concat_backslash (cs : List Char) :
    backslashRun (cs ++ ['\\']) = backslashRun cs + 1 := by
  simp [backslashRun]

/-- Any other character ends it. -/
theorem backslashRun_concat_other (cs : List Char) {c : Char} (h : c ≠ '\\') :
    backslashRun (cs ++ [c]) = 0 := by
  simp [backslashRun, h]

/-- Behind the escape of a character a run of backslashes is even again. -/
theorem even_backslashRun_escapeChar {front : List Char} (hFront : backslashRun front % 2 = 0)
    (c : Char) : backslashRun (front ++ escapeChar c) % 2 = 0 := by
  have hDigit : ∀ n < 16, hexDigit n ≠ '\\' := by decide
  -- an escape that ends with another character ends every run
  have hOther (first : List Char) {last : Char} (hLast : last ≠ '\\') :
      backslashRun (front ++ (first ++ [last])) % 2 = 0 := by
    rw [← List.append_assoc, backslashRun_concat_other _ hLast]
  -- only the escape of a backslash ends with one, and it adds two
  unfold escapeChar
  split
  · exact hOther ['\\'] (by decide)
  split
  · have hTwo : front ++ ['\\', '\\'] = front ++ ['\\'] ++ ['\\'] := by simp
    rw [hTwo, backslashRun_concat_backslash, backslashRun_concat_backslash]
    omega
  split
  · exact hOther ['\\'] (by decide)
  split
  · exact hOther ['\\'] (by decide)
  split
  · exact hOther ['\\'] (by decide)
  split
  · exact hOther ['\\'] (by decide)
  split
  · exact hOther ['\\'] (by decide)
  split
  · next hLow =>
    have hSmall : c.toNat < 0x20 := hLow
    exact hOther ['\\', 'u', '0', '0', hexDigit (c.toNat / 16)] (hDigit _ (by omega))
  · next _ hBack _ _ _ _ _ _ => exact hOther [] hBack

/-- Only a quote has a quote in its escape. -/
theorem eq_quote_of_mem_escapeChar {c : Char} (h : '"' ∈ escapeChar c) : c = '"' := by
  have hDigit : ∀ n < 16, '"' ≠ hexDigit n := by decide
  unfold escapeChar at h
  split at h
  · assumption
  -- the escapes with a letter of their own
  iterate 6
    split at h
    · exact absurd h (by decide)
  split at h
  · next hLow =>
    have hSmall : c.toNat < 0x20 := hLow
    simp only [List.mem_cons, List.not_mem_nil, or_false, hDigit _ (by omega : c.toNat / 16 < 16),
      hDigit _ (by omega : c.toNat % 16 < 16)] at h
    exact absurd h (by decide)
  · exact (List.mem_singleton.mp h).symm

/-- In the escape of a character one backslash alone stands in front of a
quote. -/
theorem before_quote_escapeChar {c : Char} {before after : List Char}
    (h : escapeChar c = before ++ '"' :: after) : before = ['\\'] := by
  have hQuote : c = '"' := eq_quote_of_mem_escapeChar (by rw [h]; simp)
  subst hQuote
  have hPair : ['\\', '"'] = before ++ '"' :: after := h
  cases before with
  | nil => exact absurd (List.head_eq_of_cons_eq hPair) (by decide)
  | cons first rest =>
    rw [List.cons_append, List.cons.injEq] at hPair
    obtain ⟨rfl, hRest⟩ := hPair
    cases rest with
    | nil => rfl
    | cons second others => simp at hRest

/-- Inside a literal a quote stands behind an odd number of backslashes. -/
theorem odd_backslashRun_of_quote {cs front before after : List Char}
    (hFront : backslashRun front % 2 = 0)
    (h : cs.flatMap escapeChar = before ++ '"' :: after) :
    backslashRun (front ++ before) % 2 = 1 := by
  -- `front` is what has been passed already, and its last run is even
  induction cs generalizing front before with
  | nil => simp at h
  | cons c rest ih =>
    rw [List.flatMap_cons, List.append_eq_append_iff] at h
    obtain ⟨more, hBefore, hRest⟩ | ⟨tail, hEscape, hTail⟩ := h
    · -- the quote stands behind the escape of the first character
      rw [hBefore, ← List.append_assoc]
      exact ih (even_backslashRun_escapeChar hFront c) hRest
    · cases tail with
      | nil =>
        -- it is the first character of what follows
        rw [List.append_nil] at hEscape
        have hRest : rest.flatMap escapeChar = [] ++ '"' :: after := hTail.symm
        have hNext := ih (even_backslashRun_escapeChar hFront c) hRest
        rwa [List.append_nil, hEscape] at hNext
      | cons first others =>
        -- it belongs to the escape of the first character, which is a quote
        rw [List.cons_append, List.cons.injEq] at hTail
        obtain ⟨rfl, -⟩ := hTail
        rw [before_quote_escapeChar hEscape, backslashRun_concat_backslash]
        omega

/-! ## Literals -/

/-- A literal is read back as its string. -/
theorem ofText_escaped (s : String) : ofText (escaped s) = .ok (.string s) := by
  have hNumbers : (Json.string s).IntegersOnly := trivial
  have hReadable : (Json.string s).Readable := ⟨Nat.zero_le _, trivial⟩
  have hRead := ofText_text hNumbers hReadable
  rwa [text] at hRead

/-- Literals that begin a common text are those of one string. -/
theorem escaped_append_inj_text {s t x y : String} (h : escaped s ++ x = escaped t ++ y) :
    s = t ∧ x = y := by
  have hChars := congrArg String.toList h
  rw [String.toList_append, String.toList_append] at hChars
  obtain ⟨hSame, hBehind⟩ := escaped_append_inj hChars
  exact ⟨hSame, String.toList_inj.mp hBehind⟩

/-- Under JSON escaping a string is written as its literal, whether it is
copied or escaped, and the bytes tell correctly whether it may be copied.
Between the quotes of the literal there is no control character and no quote
but behind an odd number of backslashes. The literal is read back as the
string, and it tells where it ends: no other literal begins a text that it
begins, so that different keys have different labels. -/
theorem literal_delimits (s : String) :
    (∀ out : String, out ++ literal .json s = out ++ escaped s) ∧
    (Text.bytes s).any byteNeedsEscape = s.toList.any needsEscape ∧
    (∃ interior, (literal .json s).toList = '"' :: (interior ++ ['"']) ∧
      (∀ c ∈ interior, ¬ c.val < 0x20) ∧
      ∀ before after, interior = before ++ '"' :: after → backslashRun before % 2 = 1) ∧
    ofText (literal .json s) = .ok (.string s) ∧
    (∀ t x y : String, literal .json s ++ x = literal .json t ++ y → s = t ∧ x = y) ∧
    ∀ t, Schema.label s = Schema.label t → s = t := by
  have hDelimits (t x y : String) (h : literal .json s ++ x = literal .json t ++ y) :
      s = t ∧ x = y := by
    rw [literal_json, literal_json] at h
    exact escaped_append_inj_text h
  refine ⟨fun out => by rw [literal_json], any_bytes_needsEscape s, ?_, ?_, hDelimits, ?_⟩
  · -- between the quotes stand the escapes of the characters
    refine ⟨s.toList.flatMap escapeChar, ?_, (isBody_flatMap s.toList).noControl, ?_⟩
    · rw [literal_json, escaped, enclosed, String.toList_ofList]
      rfl
    · intro before after hInterior
      -- a quote inside stands behind an odd number of backslashes, for it has been escaped
      have hNothing : backslashRun [] % 2 = 0 := rfl
      exact odd_backslashRun_of_quote hNothing hInterior
  · rw [literal_json]
    exact ofText_escaped s
  · intro t hLabel
    exact (hDelimits t ":" ":" hLabel).1

/-- Two backslashes of the string are four in its literal, and the quote
behind them is escaped by a fifth. -/
example : literal .json "\\\\\"" = "\"\\\\\\\\\\\"\"" := by decide

end JsonStencil.Json
