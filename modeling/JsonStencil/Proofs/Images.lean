import JsonStencil.Proofs.Comparisons
import JsonStencil.Proofs.ReadingBack

/-!
# What the generic text stands for

The generic text of a value is the compact text of a JSON value, its image:
entries that hold undefined are gone, undefined anywhere else is null, an
instant has become the string of its text and a large integer a number. A
value that is nested no deeper than the reader goes, and whose numbers are
integers of 64 bits, is thus decoded to its image, member for member.

Main definitions:

* `Value.image` — the JSON value that stands for a value.
* `Value.depth` / `Value.IntegersOnly` — how deeply a value is nested, and
  which numbers it has.

Main results:

* `text_image` — a value has the text of its image.
* `ofText_genericText` — the generic text is decoded to the image.
-/

namespace JsonStencil.Value

/-! ## Images -/

mutual

/-- The JSON value that stands for a value. -/
def image : Value → Json
  | .undefined => .null
  | .null => .null
  | .bool b => .bool b
  | .number n => .number n
  | .bigint n => .number (.integer n)
  | .string s => .string s
  | .instant t => .string t.text
  | .array items => .array (imageOfItems items)
  | .object entries => .object (imageOfEntries entries)

/-- Item by item; an undefined item keeps its place. -/
def imageOfItems : List Value → List Json
  | [] => []
  | item :: rest => image item :: imageOfItems rest

/-- The entries that do not hold undefined. -/
def imageOfEntries : List (String × Value) → List (String × Json)
  | [] => []
  | (key, value) :: rest =>
    if value.isUndefined then imageOfEntries rest else (key, image value) :: imageOfEntries rest

end

mutual

/-- A value has the text of its image. -/
theorem text_image : ∀ v : Value, v.image.text = v.text
  | .undefined | .null | .bool true | .bool false | .number _ | .bigint _ | .string _
  | .instant _ => rfl
  | .array items => by rw [image, Json.text, text, itemTexts_image items]
  | .object entries => by rw [image, Json.text, text, entryTexts_image entries]

/-- Item by item. -/
theorem itemTexts_image : ∀ items : List Value,
    Json.itemTexts (imageOfItems items) = itemTexts items
  | [] => rfl
  | item :: rest => by
    rw [imageOfItems, Json.itemTexts, itemTexts, text_image item, itemTexts_image rest]

/-- Entry by entry; what is undefined has no text and no image. -/
theorem entryTexts_image : ∀ entries : List (String × Value),
    Json.memberTexts (imageOfEntries entries) = entryTexts entries
  | [] => rfl
  | (key, value) :: rest => by
    rw [imageOfEntries, entryTexts]
    split
    · exact entryTexts_image rest
    · rw [Json.memberTexts, text_image value, entryTexts_image rest]

end

/-! ## Keys -/

/-- The members come in the order of the entries. -/
theorem keys_imageOfEntries_sublist (entries : List (String × Value)) :
    (Fields.keys (imageOfEntries entries)).Sublist (Fields.keys entries) := by
  induction entries with
  | nil => exact List.Sublist.refl _
  | cons entry rest ih =>
    obtain ⟨key, value⟩ := entry
    rw [imageOfEntries]
    -- an entry that holds undefined is left out
    split
    · exact ih.cons _
    · exact ih.cons_cons _

mutual

/-- No key is repeated in the image. -/
theorem keysDistinct_image : ∀ v : Value, v.KeysDistinct → v.image.KeysDistinct
  | .undefined, _ | .null, _ | .bool _, _ | .number _, _ | .bigint _, _ | .string _, _
  | .instant _, _ => trivial
  | .array items, h => keysDistinct_imageOfItems items h
  -- leaving entries out repeats no key
  | .object entries, h =>
    ⟨(keys_imageOfEntries_sublist entries).nodup h.1, keysDistinct_imageOfEntries entries h.2⟩

theorem keysDistinct_imageOfItems : ∀ items : List Value, KeysDistinctInItems items →
    Json.KeysDistinctInItems (imageOfItems items)
  | [], _ => trivial
  | item :: rest, h => ⟨keysDistinct_image item h.1, keysDistinct_imageOfItems rest h.2⟩

/-- Entry by entry. -/
theorem keysDistinct_imageOfEntries : ∀ entries : List (String × Value),
    KeysDistinctInEntries entries → Json.KeysDistinctInMembers (imageOfEntries entries)
  | [], _ => trivial
  | (_, value) :: rest, h => by
    rw [imageOfEntries]
    split
    · exact keysDistinct_imageOfEntries rest h.2
    · exact ⟨keysDistinct_image value h.1, keysDistinct_imageOfEntries rest h.2⟩

end

/-! ## Nesting -/

mutual

/-- How deeply arrays and objects are nested. -/
def depth : Value → Nat
  | .array items => depthOfItems items + 1
  | .object entries => depthOfEntries entries + 1
  | _ => 0

/-- The greatest depth of an item. -/
def depthOfItems : List Value → Nat
  | [] => 0
  | item :: rest => max (depth item) (depthOfItems rest)

/-- The greatest depth of an entry. -/
def depthOfEntries : List (String × Value) → Nat
  | [] => 0
  | (_, value) :: rest => max (depth value) (depthOfEntries rest)

end

mutual

/-- The image is nested as deeply as the value: undefined adds nothing. -/
theorem depth_image : ∀ v : Value, v.image.depth = v.depth
  | .undefined | .null | .bool _ | .number _ | .bigint _ | .string _ | .instant _ => rfl
  | .array items => by rw [image, Json.depth, depth, depthOfItems_image items]
  | .object entries => by rw [image, Json.depth, depth, depthOfMembers_image entries]

/-- Item by item. -/
theorem depthOfItems_image : ∀ items : List Value,
    Json.depthOfItems (imageOfItems items) = depthOfItems items
  | [] => rfl
  | item :: rest => by
    rw [imageOfItems, Json.depthOfItems, depthOfItems, depth_image item, depthOfItems_image rest]

/-- Entry by entry. -/
theorem depthOfMembers_image : ∀ entries : List (String × Value),
    Json.depthOfMembers (imageOfEntries entries) = depthOfEntries entries
  | [] => rfl
  | (key, value) :: rest => by
    rw [imageOfEntries, depthOfEntries]
    -- an entry that is left out had the depth of a leaf
    cases hUndefined : value.isUndefined with
    | true =>
      cases value with
      | undefined => rw [if_pos rfl, depth, Nat.zero_max, depthOfMembers_image rest] <;> nofun
      | _ => cases hUndefined
    | false =>
      rw [if_neg Bool.false_ne_true, Json.depthOfMembers, depth_image value,
        depthOfMembers_image rest]

end

/-! ## Numbers -/

mutual

/-- Every number is an integer of 64 bits, large integers included. -/
def IntegersOnly : Value → Prop
  | .number (.integer value) => Json.InRange value
  | .number (.float _) => False
  | .bigint value => Json.InRange value
  | .array items => IntegersOnlyInItems items
  | .object entries => IntegersOnlyInEntries entries
  | _ => True

/-- In every item. -/
def IntegersOnlyInItems : List Value → Prop
  | [] => True
  | item :: rest => IntegersOnly item ∧ IntegersOnlyInItems rest

/-- In every entry. -/
def IntegersOnlyInEntries : List (String × Value) → Prop
  | [] => True
  | (_, value) :: rest => IntegersOnly value ∧ IntegersOnlyInEntries rest

end

mutual

/-- The image has no other numbers. -/
theorem integersOnly_image : ∀ v : Value, v.IntegersOnly → v.image.IntegersOnly
  | .undefined, _ | .null, _ | .bool _, _ | .string _, _ | .instant _, _ => trivial
  | .number (.float _), h => h.elim
  | .number (.integer n), h | .bigint n, h => by
    rw [IntegersOnly] at h
    rwa [image, Json.IntegersOnly]
  | .array items, h => integersOnly_imageOfItems items h
  | .object entries, h => integersOnly_imageOfEntries entries h

theorem integersOnly_imageOfItems : ∀ items : List Value, IntegersOnlyInItems items →
    Json.IntegersOnlyInItems (imageOfItems items)
  | [], _ => trivial
  | item :: rest, h => ⟨integersOnly_image item h.1, integersOnly_imageOfItems rest h.2⟩

/-- Entry by entry. -/
theorem integersOnly_imageOfEntries : ∀ entries : List (String × Value),
    IntegersOnlyInEntries entries → Json.IntegersOnlyInMembers (imageOfEntries entries)
  | [], _ => trivial
  | (_, value) :: rest, h => by
    rw [imageOfEntries]
    split
    · exact integersOnly_imageOfEntries rest h.2
    · exact ⟨integersOnly_image value h.1, integersOnly_imageOfEntries rest h.2⟩

end

/-! ## Decoding -/

/-- **The generic text can be decoded.** A value that is nested at most 127
levels deep and whose numbers are integers of 64 bits has a generic text, which
is read as the image of the value: with every member in its place and every
string as it was. -/
theorem ofText_genericText {v : Value} (hKeys : v.KeysDistinct) (hDepth : v.depth ≤ 127)
    (hIntegers : v.IntegersOnly) : Json.ofText v.text = .ok v.image := by
  have hReadable : v.image.Readable := ⟨v.depth_image.symm ▸ hDepth, v.keysDistinct_image hKeys⟩
  -- the text is that of the image, which the reader gives back
  rw [← v.text_image]
  exact Json.ofText_text (v.integersOnly_image hIntegers) hReadable

/-- Undefined, an instant, strings of any content and integers at the bounds,
one inside another. -/
theorem ofText_genericText_mixed :
    let v := Value.object [("gone", .undefined),
      ("\"k\\\n", .array [.undefined, .bigint (-9223372036854775808), .instant ⟨0, 0⟩]),
      ("z", .object [("a", .number (.integer 18446744073709551615)), ("b", .string "\u0001é😀")])]
    (v.KeysDistinct ∧ v.depth ≤ 127 ∧ v.IntegersOnly) ∧
      Json.ofText v.text = .ok (.object [
        ("\"k\\\n", .array [.null, .number (.integer (-9223372036854775808)),
          .string "1970-01-01T00:00:00.000Z"]),
        ("z", .object [("a", .number (.integer 18446744073709551615)),
          ("b", .string "\u0001é😀")])]) := by
  intro v
  have hKeys : v.KeysDistinct := by
    simp [v, KeysDistinct, KeysDistinctInEntries, KeysDistinctInItems, Fields.keys]
  -- an object in an object, with the least and the greatest numbers that are read back
  have hDepth : v.depth ≤ 127 := by decide
  have hIntegers : v.IntegersOnly := by
    simp [v, IntegersOnly, IntegersOnlyInEntries, IntegersOnlyInItems, Json.InRange]
  exact ⟨⟨hKeys, hDepth, hIntegers⟩, ofText_genericText hKeys hDepth hIntegers⟩

end JsonStencil.Value
