import JsonStencil.Proofs.Numerals
import JsonStencil.Value

/-!
# Generic texts are compact values

The literal of a string is a string of the grammar: what is escaped is
escaped by a production, and what is not may stand for itself. With that the
text of a JSON value and the generic text of a runtime value are compact
values of the grammar, whatever they hold.

Main results:

* `escaped_isString` — the literal of a string.
* `Json.text_compact` — the text of a JSON value.
* `Value.text_compact` — the generic text of a runtime value.
-/

namespace JsonStencil

open Grammar

/-! ## Literals -/

namespace Json

/-- The digits of numbers below 16 are hexadecimal. -/
theorem isHex_hexDigit {n : Nat} (h : n < 16) : isHex (hexDigit n) = true := by
  have hAll : ∀ n < 16, isHex (hexDigit n) = true := by decide
  exact hAll n h

/-- What stands for a character is made by one production. -/
theorem isBody_escapeChar (c : Char) {rest : List Char} (hRest : IsBody rest) :
    IsBody (escapeChar c ++ rest) := by
  have hLetter {x : Char} (hKnown : x ∈ ['"', '\\', '/', 'b', 'f', 'n', 'r', 't']) :
      IsBody (['\\', x] ++ rest) := .letter hKnown hRest
  -- eight characters have letters of their own, and they are asked for one by one
  unfold escapeChar
  split
  · exact hLetter (by decide)
  split
  · exact hLetter (by decide)
  split
  · exact hLetter (by decide)
  split
  · exact hLetter (by decide)
  split
  · exact hLetter (by decide)
  split
  · exact hLetter (by decide)
  split
  · exact hLetter (by decide)
  split
  · next hLow =>
    -- a control character without a letter of its own
    have hSmall : c.toNat < 0x20 := hLow
    refine .code ?_ hRest
    simp only [List.forall_mem_cons, List.not_mem_nil, false_implies, implies_true, and_true]
    exact ⟨by decide, by decide, isHex_hexDigit (by omega), isHex_hexDigit (by omega)⟩
  · next hQuote hBack _ _ _ _ _ hLow => exact .plain hLow hQuote hBack hRest

/-- What stands for the characters of a string can stand between quotes. -/
theorem isBody_flatMap (cs : List Char) : IsBody (cs.flatMap escapeChar) := by
  induction cs with
  | nil => exact .nil
  | cons c rest ih =>
    rw [List.flatMap_cons]
    exact isBody_escapeChar c ih

/-- The literal of a string is a string. -/
theorem escaped_isString (s : String) : IsString (escaped s).toList := by
  rw [escaped, enclosed, String.toList_ofList]
  exact .intro (isBody_flatMap s.toList)

/-- So the literal of a string is a compact value. -/
theorem escaped_compact (s : String) : Compact (escaped s).toList :=
  .string (escaped_isString s)

/-! ## Values -/

/-- The text of a number is one, too. -/
theorem Number.text_compact (n : Number) : Compact n.text.toList := by
  cases n with
  | integer value => exact .number (integerText_isNumber value)
  | float value => exact .number value.text_isNumber

end Json

/-- The word `null` is a compact value. -/
theorem null_compact : Compact "null".toList := .word (by decide)

/-- So are the two words for truth values. -/
theorem bool_compact (b : Bool) : Compact (if b then "true" else "false").toList := by
  cases b
  · exact .word (by decide)
  · exact .word (by decide)

/-- A label and a value are a field. -/
theorem isField_of_label {key text : String} (h : Compact text.toList) :
    IsField (Json.escaped key ++ ":" ++ text) := by
  refine ⟨(Json.escaped key).toList, text.toList, Json.escaped_isString key, h, ?_⟩
  rw [String.toList_append, String.toList_append, List.append_assoc]
  rfl

namespace Json

mutual

/-- The text of a JSON value is a compact value. -/
theorem text_compact : ∀ j : Json, Compact j.text.toList
  | .null => null_compact
  | .bool b => by
    cases b
    · exact bool_compact false
    · exact bool_compact true
  | .number n => n.text_compact
  | .string s => escaped_compact s
  | .array items => by
    rw [text]
    exact compact_bracketed (itemTexts_compact items)
  | .object members => by
    rw [text]
    exact compact_braced (memberTexts_isField members)

/-- So are the texts of all items. -/
theorem itemTexts_compact : ∀ items : List Json, ∀ text ∈ itemTexts items, Compact text.toList
  | [] => by
    rw [itemTexts]
    exact fun _ h => absurd h List.not_mem_nil
  | item :: rest => by
    rw [itemTexts]
    exact List.forall_mem_cons.mpr ⟨text_compact item, itemTexts_compact rest⟩

/-- The texts of all members are fields. -/
theorem memberTexts_isField : ∀ members : List (String × Json),
    ∀ field ∈ memberTexts members, IsField field
  | [] => by
    rw [memberTexts]
    exact fun _ h => absurd h List.not_mem_nil
  | (key, value) :: rest => by
    rw [memberTexts]
    exact List.forall_mem_cons.mpr ⟨isField_of_label (text_compact value), memberTexts_isField rest⟩

end

end Json

namespace Value

mutual

/-- The generic text of a value is a compact value. -/
theorem text_compact : ∀ v : Value, Compact v.text.toList
  | .undefined | .null => null_compact
  | .bool b => by
    cases b
    · exact bool_compact false
    · exact bool_compact true
  | .number n => n.text_compact
  | .bigint n => .number (integerText_isNumber n)
  | .string s => Json.escaped_compact s
  | .instant t => Json.escaped_compact t.text
  | .array items => by
    rw [text]
    exact compact_bracketed (itemTexts_compact items)
  | .object entries => by
    rw [text]
    exact compact_braced (entryTexts_isField entries)

/-- So are the texts of all items. -/
theorem itemTexts_compact : ∀ items : List Value, ∀ text ∈ itemTexts items, Compact text.toList
  | [] => by
    rw [itemTexts]
    exact fun _ h => absurd h List.not_mem_nil
  | item :: rest => by
    rw [itemTexts]
    exact List.forall_mem_cons.mpr ⟨text_compact item, itemTexts_compact rest⟩

/-- The texts of all entries that are written are fields. -/
theorem entryTexts_isField : ∀ entries : List (String × Value),
    ∀ field ∈ entryTexts entries, IsField field
  | [] => by
    rw [entryTexts]
    exact fun _ h => absurd h List.not_mem_nil
  | (key, value) :: rest => by
    rw [entryTexts]
    -- an undefined entry has no text at all
    split
    · exact entryTexts_isField rest
    · exact List.forall_mem_cons.mpr
        ⟨isField_of_label (text_compact value), entryTexts_isField rest⟩

end

end Value

end JsonStencil
