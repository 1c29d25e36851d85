import JsonStencil.Proofs.Positions
import JsonStencil.Proofs.Pruned

/-!
# Leaves write the generic text

Away from guards, a string is written with its quotes as the generic text
writes it, and so is an instant, whose text is copied only because nothing in
it needs an escape. A scalar that is written as it stands agrees with the
generic text unless it is a string, which then lacks its quotes.

Main results:

* `Instant.literal_text` — instants need no escape.
* `writerText_eq_text` / `dateText_eq_text` — scalars.
* `joinedText_eq_text` — arrays.
* `direct_leaf` — a leaf writes the generic text behind its guard.
-/

namespace JsonStencil

/-! ## Instants need no escape -/

/-- A digit stands for itself inside a literal. -/
theorem Json.needsEscape_of_isDigit {c : Char} (h : c.isDigit = true) :
    Json.needsEscape c = false := by
  rw [Char.isDigit, Bool.and_eq_true, decide_eq_true_eq, decide_eq_true_eq] at h
  have hQuote : c ≠ '"' := by
    rintro rfl
    exact absurd h.1 (by decide)
  have hBack : c ≠ '\\' := by
    rintro rfl
    exact absurd h.2 (by decide)
  have hLow : ¬ c.val < 0x20 := fun hLow =>
    absurd (UInt32.lt_of_le_of_lt h.1 hLow) (by decide)
  rw [Json.needsEscape, beq_eq_false_iff_ne.mpr hQuote, beq_eq_false_iff_ne.mpr hBack,
    decide_eq_false hLow]
  rfl

namespace Instant

/-- Digits with zeros in front need no escape. -/
theorem any_needsEscape_padded (width n : Nat) : (padded width n).any Json.needsEscape = false := by
  refine List.any_eq_false.mpr fun c hc => ?_
  rw [Bool.not_eq_true]
  rw [padded] at hc
  -- a zero in front, or a digit
  rcases List.mem_append.mp hc with hZero | hDigit
  · rw [List.eq_of_mem_replicate hZero]
    decide
  · exact Json.needsEscape_of_isDigit (Nat.isDigit_of_mem_toDigits (by decide) (by decide) hDigit)

/-- A year needs none, with a sign or without. -/
theorem any_needsEscape_yearText (year : Int) : (yearText year).any Json.needsEscape = false := by
  rw [yearText]
  split
  · exact any_needsEscape_padded 4 year.natAbs
  · rw [List.any_cons, any_needsEscape_padded, Bool.or_false]
    split <;> decide

/-- Nothing in the text of an instant needs an escape. -/
theorem any_needsEscape_chars (t : Instant) : t.chars.any Json.needsEscape = false := by
  have hMarks : ['-', 'T', ':', '.', 'Z'].any Json.needsEscape = false := by decide
  simp only [List.any_cons, List.any_nil, Bool.or_eq_false_iff] at hMarks
  obtain ⟨hDash, hTime, hColon, hPoint, hZone, -⟩ := hMarks
  simp only [chars, List.any_append, List.any_cons, List.any_nil, any_needsEscape_padded,
    any_needsEscape_yearText, hDash, hTime, hColon, hPoint, hZone, Bool.or_false]

/-- The text of an instant is copied as its own literal. -/
theorem literal_text (t : Instant) : Json.literal .trusted t.text = Json.escaped t.text := by
  rw [← Json.literal_json, Json.literal, Json.literal, Json.any_bytes_needsEscape, text,
    String.toList_ofList, any_needsEscape_chars]
  rfl

end Instant

/-! ## Scalars and arrays -/

section Leaves

variable {v : Value}

/-- A scalar writer agrees with the generic text but for strings that are
copied. -/
theorem writerText_eq_text (writer : Writer) (hRaw : writer = .raw → v.isString = false) :
    writer.text .json v = v.text := by
  cases writer with
  | quoted =>
    cases v with
    | string s => exact Json.literal_json s
    | _ => rfl
  | raw =>
    cases v with
    | bool b => cases b <;> rfl
    | string s => exact nomatch hRaw rfl
    | instant t => exact t.literal_text
    | _ => rfl

/-- So does the writer of dates. -/
theorem dateText_eq_text (v : Value) : v.dateText .json = v.text := by
  cases v with
  | bool b => cases b <;> rfl
  | string s => exact Json.literal_json s
  | instant t => exact t.literal_text
  | _ => rfl

/-- A joined array agrees if each of its items does. -/
theorem joinedText_eq_text {item : Value → String}
    (hItem : ∀ entries, v = .array entries → ∀ entry ∈ entries, item entry = entry.text) :
    v.joinedText item = v.text := by
  cases v with
  | array entries =>
    rw [Value.joinedText, Value.text, Value.itemTexts_eq_map]
    congr 1
    exact List.map_congr_left (hItem entries rfl)
  | _ => rfl

/-- A leaf writes the generic text behind its guard. -/
theorem Node.direct_leaf {node : Node} (hLeaf : node.isLeaf = true)
    (hRaw : node.CopiesNoString v) : node.direct .json v = guardedText node.guard v v.text := by
  -- the guard is the same on both sides, so only the texts behind it count
  cases node with
  | silent => cases hLeaf
  | generic => rfl
  | scalar writer guard =>
    have hText : writer.text .json v = v.text := writerText_eq_text writer fun hWriter => by
      rw [hWriter] at hRaw
      exact hRaw
    rw [Node.direct, hText]
    rfl
  | date guard =>
    rw [Node.direct, dateText_eq_text]
    rfl
  | object properties guard => cases hLeaf
  | joined writer guard =>
    have hText : v.joinedText (writer.text .json) = v.text := by
      refine joinedText_eq_text fun entries hArray entry hEntry => ?_
      refine writerText_eq_text writer fun hWriter => ?_
      rw [hWriter, hArray] at hRaw
      exact hRaw entry hEntry
    rw [Node.direct, hText]
    rfl
  | loop items guard => cases hLeaf

end Leaves

end JsonStencil
