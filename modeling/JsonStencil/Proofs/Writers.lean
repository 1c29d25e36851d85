import JsonStencil.Proofs.Comparisons
import JsonStencil.Proofs.Decoding
import JsonStencil.Proofs.Joins
import JsonStencil.Proofs.Leaves

/-!
# Writers and the generic text

A step hands the value that it finds to a writer for the kind of value that
its schema leads it to expect, and nothing keeps another kind from turning up
there. Under JSON escaping the writers then still agree with the generic text,
on every kind of value: each of them knows the literal of a string, the bare
text of a number and the text of an instant, and leaves containers to the
generic text.

The one exception is a string that is written as it stands. It lacks its
quotes and its escapes and so is always shorter than its literal, by itself
and as an item of a join.

Main results:

* `rawText_eq_text_iff` / `joinedText_rawText_eq_text_iff` — where copying
  agrees with the generic text.
* `Instant.any_byteNeedsEscape_text` — the bytes of an instant's text stand
  for themselves.
* `writers_eq_text` — all writers beside the generic text.
-/

namespace JsonStencil

/-- A literal is longer than its string, by its quotes at least. -/
theorem Json.length_lt_length_escaped (s : String) : s.length < (Json.escaped s).length := by
  have hBody : s.toList.length ≤ (s.toList.flatMap escapeChar).length :=
    length_le_flatMap_escapeChar s.toList
  have hLiteral : (escaped s).length = (s.toList.flatMap escapeChar).length + 2 := by
    simp [escaped, enclosed, ← String.length_toList]
  rw [String.length_toList] at hBody
  omega

/-- The bytes of an instant's text stand for themselves inside a literal. -/
theorem Instant.any_byteNeedsEscape_text (t : Instant) :
    (Text.bytes t.text).any Json.byteNeedsEscape = false := by
  rw [Json.any_bytes_needsEscape, text, String.toList_ofList]
  exact t.any_needsEscape_chars

namespace Value

/-! ## Single values -/

/-- Where a string is expected, anything is written by its generic text. -/
theorem quotedText_eq_text (v : Value) : v.quotedText .json = v.text :=
  writerText_eq_text .quoted nofun

/-- A string is copied whatever the escaping. -/
@[simp] theorem rawText_string (escaping : Json.Escaping) (s : String) :
    (string s).rawText escaping = s := rfl

/-- Anything but a string is written by its generic text where it is copied. -/
theorem rawText_eq_text {v : Value} (h : v.isString = false) : v.rawText .json = v.text :=
  writerText_eq_text .raw fun _ => h

/-- What is written as it stands is never longer than the generic text. -/
theorem length_rawText_le (v : Value) : (v.rawText .json).length ≤ v.text.length := by
  cases h : v.isString with
  | false => exact Nat.le_of_eq (congrArg String.length (rawText_eq_text h))
  | true =>
    -- a copied string is shorter than its literal
    cases v with
    | string s => exact Nat.le_of_lt (Json.length_lt_length_escaped s)
    | _ => exact nomatch h

/-- **Only strings differ from the generic text where they are written as they
stand**, and all of them do. -/
theorem rawText_eq_text_iff (v : Value) : v.rawText .json = v.text ↔ v.isString = false := by
  constructor
  · intro hText
    cases v with
    | string s =>
      -- a copied string lacks the quotes of its literal at least
      have hLength : s.length = (Json.escaped s).length := congrArg String.length hText
      have hLonger := Json.length_lt_length_escaped s
      omega
    | _ => rfl
  · exact rawText_eq_text

/-- An instant is written alike under every escaping. -/
theorem dateText_instant (escaping : Json.Escaping) (t : Instant) :
    (instant t).dateText escaping = (instant t).text :=
  t.literal_text

/-- An instant is copied alike under every escaping. -/
theorem rawText_instant (escaping : Json.Escaping) (t : Instant) :
    (instant t).rawText escaping = (instant t).text :=
  t.literal_text

/-! ## Joins -/

/-- Whether the value is an array with a string among its items. -/
def holdsString : Value → Bool
  | .array items => items.any isString
  | _ => false

/-- A join of quoted items is the generic text. -/
theorem joinedText_quotedText_eq_text (v : Value) :
    v.joinedText (quotedText .json) = v.text :=
  joinedText_eq_text fun _ _ item _ => item.quotedText_eq_text

/-- **A join of items that are written as they stand is the generic text
exactly if no item is a string.** -/
theorem joinedText_rawText_eq_text_iff (v : Value) :
    v.joinedText (rawText .json) = v.text ↔ v.holdsString = false := by
  cases v with
  | array items =>
    -- no item is a string exactly if each is copied as its generic text
    have hItems : (array items).holdsString = false ↔
        ∀ item ∈ items, item.rawText .json = item.text := by
      rw [holdsString, List.any_eq_false]
      simp only [Bool.not_eq_true, rawText_eq_text_iff]
    rw [hItems, joinedText, text, itemTexts_eq_map, bracketed, bracketed,
      String.append_left_inj, String.append_right_inj]
    constructor
    · -- no item gains by being copied, so none may lose either
      intro hJoined
      exact commaSep_map_injective (fun item _ => item.length_rawText_le) hJoined
    · intro hSame
      rw [List.map_congr_left hSame]
  | _ => simp [joinedText, holdsString]

/-! ## All writers -/

/-- **The writers agree with the generic text.** Under JSON escaping a value
of any kind is written by its generic text where a string or an instant is
expected, and where a scalar is expected unless it is a string, which is then
copied. So a join of quoted items is the generic text of any value, and a join
of copied items is that of every value but an array that holds a string.
An instant needs no escape and is written alike under every escaping. The
text of a JSON value is the generic text of the runtime value made of it. -/
theorem writers_eq_text :
    (∀ v : Value,
      v.quotedText .json = v.text ∧ v.dateText .json = v.text ∧
      (v.rawText .json = v.text ↔ v.isString = false) ∧
      v.joinedText (quotedText .json) = v.text ∧
      (v.joinedText (rawText .json) = v.text ↔ v.holdsString = false)) ∧
    (∀ (escaping : Json.Escaping) (s : String), (string s).rawText escaping = s) ∧
    (∀ (escaping : Json.Escaping) (t : Instant),
      (Text.bytes t.text).any Json.byteNeedsEscape = false ∧
      (instant t).dateText escaping = (instant t).text ∧
      (instant t).rawText escaping = (instant t).text) ∧
    ∀ j : Json, j.text = (ofJson j).text := by
  -- values of any kind, strings, instants and JSON values
  refine ⟨?_, rawText_string, ?_, ?_⟩
  · intro v
    exact ⟨v.quotedText_eq_text, dateText_eq_text v, v.rawText_eq_text_iff,
      v.joinedText_quotedText_eq_text, v.joinedText_rawText_eq_text_iff⟩
  · intro escaping t
    exact ⟨t.any_byteNeedsEscape_text, dateText_instant escaping t, rawText_instant escaping t⟩
  · exact fun j => (text_ofJson j).symm

end Value

end JsonStencil
