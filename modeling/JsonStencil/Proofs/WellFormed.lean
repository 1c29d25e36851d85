import JsonStencil.Proofs.CompactTexts
import JsonStencil.Proofs.Gaps
import JsonStencil.Proofs.Leaves
import JsonStencil.Proofs.Simulation

/-!
# Encoded texts are JSON texts

Where no string is copied without its quotes, an encoder writes a JSON text
unless a node that is undefined alone stands where a value has to be: such a
node writes nothing. As a property it has no field, so nothing is missed. As
the root it leaves the text empty, and below an array of at least two items
it leaves a gap between commas. A gap is never mended by the text around it,
so these are the only ways in which the text can fail.

Main definitions:

* `Schema.Gap` — an array of two or more items that are undefined alone.

Main results:

* `direct_compact` — without gaps the text is a compact value.
* `direct_breaks` — a gap below is a gap in the text.
* `encode_isText_iff` — when the text of an encoder is a JSON text.
-/

namespace JsonStencil

open Grammar

/-! ## Guards and labels -/

/-- A default is written as a compact value, and so is the null in its place. -/
theorem defaultText_compact (effective declared : Schema) :
    Compact (Schema.defaultText effective declared).toList := by
  unfold Schema.defaultText
  split
  · exact Json.text_compact _
  · exact Json.text_compact _
  · exact null_compact

/-- What the guard of a node writes is a compact value. -/
theorem fallback_compact {s : Schema} {guard : Guard} (h : s.node.guard = some guard) :
    Compact guard.fallback.toList := by
  rcases Schema.fallback_of_node h with hNull | hDefault
  · rw [hNull]
    exact null_compact
  · rw [hDefault]
    exact defaultText_compact ..

/-- A label and a value are a field. -/
theorem label_isField {key text : String} (h : Compact text.toList) :
    IsField (Schema.label key ++ text) := by
  rw [Schema.label, Json.literal_json]
  exact isField_of_label h

/-- A label leaves the reader outside of strings, or inside of one, as it found
it. -/
theorem label_passes (key : String) : Passes (Schema.label key).toList := by
  intro opened
  rw [Schema.label, Json.literal_json, String.toList_append, scan_append,
    (Json.escaped_isString key).passes opened]
  rfl

/-- A compact value ends outside of strings. -/
theorem Grammar.Compact.settles {cs : List Char} (h : Compact cs) : Settles cs :=
  (h.mono blanks_of_noBlanks).passes.settles

namespace Schema

/-! ## Gaps -/

/-- An array of nodes that are undefined alone meets two items or more. -/
def Gap (s : Schema) (v : Value) : Prop :=
  ∃ items guard entries, s.node = .loop items guard ∧ items.isUndefined = true ∧
    v = .array entries ∧ 2 ≤ entries.length

/-- A node that is undefined alone writes nothing. -/
theorem direct_of_isUndefined {s : Schema} (h : s.isUndefined = true) (escaping : Json.Escaping)
    (v : Value) : s.direct escaping v = "" := by
  rw [direct_eq, (node_eq_silent_iff s).mpr h]
  rfl

/-! ## Texts without gaps -/

/-- The items of an array are compact values, or there is nothing between
the brackets. -/
theorem loop_compact {items : Schema} {entries : List Value}
    (hItems : items.isUndefined = false →
      ∀ entry ∈ entries, Compact (items.direct .json entry).toList)
    (hFew : items.isUndefined = true → entries.length < 2) :
    Compact (bracketed (entries.map (items.direct .json))).toList := by
  cases hUndefined : items.isUndefined with
  | false =>
    refine compact_bracketed fun text hText => ?_
    obtain ⟨entry, hEntry, rfl⟩ := List.mem_map.mp hText
    exact hItems hUndefined entry hEntry
  | true =>
    have hLength := hFew hUndefined
    have hNone : Compact (bracketed []).toList :=
      compact_bracketed fun _ h => absurd h List.not_mem_nil
    -- a missing item alone between the brackets goes unnoticed
    obtain _ | ⟨entry, _ | ⟨second, rest⟩⟩ := entries
    · exact hNone
    · rw [List.map_cons, direct_of_isUndefined hUndefined]
      exact hNone
    · simp only [List.length_cons] at hLength
      omega

/-- Without gaps the text of a node is a compact value, unless the node is
undefined alone. -/
theorem direct_compact (s : Schema) : ∀ v : Value, s.isUndefined = false →
    s.Along CopiesNoString v → s.Along (fun q w => ¬ q.Gap w) v →
      Compact (s.direct .json v).toList := by
  -- by the parts of the shape; the conditions are those of the values that the parts meet
  induction s using node_induction with
  | step s ih =>
    intro v hDefined hRaw hGaps
    have hFallback : ∀ shown, s.node.guard = some shown → Compact shown.fallback.toList :=
      fun _ h => fallback_compact h
    rw [direct_eq]
    rcases s.node_cases with hSilent | hLeaf | ⟨properties, guard, hNode⟩ | ⟨items, guard, hNode⟩
    · exact nomatch hDefined.symm.trans ((node_eq_silent_iff s).mp hSilent)
    · rw [Node.direct_leaf hLeaf hRaw.here]
      exact forall_guardedText hFallback fun _ => v.text_compact
    · rw [hNode] at hFallback ⊢
      refine forall_guardedText hFallback fun hHits => compact_braced fun field hField => ?_
      obtain ⟨entry, hEntry, hWritten⟩ := (mem_directFields .json).mp hField
      obtain ⟨hThere, hCases⟩ := (mem_directField .json).mp hWritten
      -- the field has the default of a property that is absent, or its value
      split at hCases
      · obtain ⟨default, -, rfl⟩ := hCases
        exact label_isField (Json.text_compact default)
      · next hPresent =>
        rw [Bool.not_eq_true] at hPresent
        rw [hCases]
        exact label_isField (ih entry.2 (mem_parts_of_object hNode hEntry) _ hThere
          (hRaw.property hNode hHits hEntry hThere hPresent)
          (hGaps.property hNode hHits hEntry hThere hPresent))
    · rw [hNode] at hFallback ⊢
      refine forall_guardedText hFallback fun _ => ?_
      cases v with
      | array entries =>
        refine loop_compact (fun hThere entry hEntry => ?_) fun hUndefined => ?_
        · exact ih items (mem_parts_of_loop hNode) entry hThere (hRaw.item hNode hEntry)
            (hGaps.item hNode hEntry)
        · refine Nat.lt_of_not_le fun hTwo => ?_
          exact hGaps.here ⟨items, guard, entries, hNode, hUndefined, rfl, hTwo⟩
      | _ => exact Value.text_compact _

/-! ## Texts with gaps -/

/-- A property that a text has if the texts have it that an encoder puts it
together from, whatever the gaps. -/
structure Assembled (P : List Char → Prop) : Prop where
  nothing : P []
  compact {cs : List Char} (h : Compact cs) : P cs
  field {key text : String} (h : P text.toList) : P (label key ++ text).toList
  bracketed {texts : List String} (h : ∀ text ∈ texts, P text.toList) : P (bracketed texts).toList
  braced {texts : List String} (h : ∀ text ∈ texts, P text.toList) : P (braced texts).toList

section Assembled

variable {P : List Char → Prop} (hP : Assembled P)
include hP

/-- Fields have the property if the texts of the properties do. -/
theorem fields_assembled {s : Schema} {v : Value} {properties : List (String × Schema)}
    {guard : Option Guard} (hNode : s.node = .object properties guard)
    (hHits : guardHits guard v = false) (hRaw : s.Along CopiesNoString v)
    (hParts : ∀ part ∈ s.node.parts, ∀ w, part.Along CopiesNoString w →
      P (part.direct .json w).toList) :
    ∀ field ∈ directFields .json properties v, P field.toList := by
  intro field hField
  obtain ⟨entry, hEntry, hWritten⟩ := (mem_directFields .json).mp hField
  obtain ⟨hThere, hCases⟩ := (mem_directField .json).mp hWritten
  -- the default of an absent property, or the text of the property
  split at hCases
  · obtain ⟨default, -, rfl⟩ := hCases
    exact hP.field (hP.compact (Json.text_compact default))
  · next hPresent =>
    rw [Bool.not_eq_true] at hPresent
    rw [hCases]
    exact hP.field (hParts entry.2 (mem_parts_of_object hNode hEntry) _
      (hRaw.property hNode hHits hEntry hThere hPresent))

/-- The text of a node has the property. -/
theorem direct_assembled (s : Schema) : ∀ v : Value, s.Along CopiesNoString v →
    P (s.direct .json v).toList := by
  -- the same walk as for compact values, but here a gap is nothing to stop at
  induction s using node_induction with
  | step s ih =>
    intro v hRaw
    have hFallback : ∀ shown, s.node.guard = some shown → P shown.fallback.toList :=
      fun _ h => hP.compact (fallback_compact h)
    rw [direct_eq]
    rcases s.node_cases with hSilent | hLeaf | ⟨properties, guard, hNode⟩ | ⟨items, guard, hNode⟩
    · rw [hSilent]
      exact hP.nothing
    · rw [Node.direct_leaf hLeaf hRaw.here]
      exact forall_guardedText hFallback fun _ => hP.compact v.text_compact
    · have hFields := fun hHits => fields_assembled hP (v := v) hNode hHits hRaw ih
      rw [hNode] at hFallback ⊢
      exact forall_guardedText hFallback fun hHits => hP.braced (hFields hHits)
    · rw [hNode] at hFallback ⊢
      refine forall_guardedText hFallback fun _ => ?_
      cases v with
      | array entries =>
        refine hP.bracketed fun text hText => ?_
        obtain ⟨entry, hEntry, rfl⟩ := List.mem_map.mp hText
        exact ih items (mem_parts_of_loop hNode) entry (hRaw.item hNode hEntry)
      | _ => exact hP.compact (Value.text_compact _)

end Assembled

/-- Whatever the gaps, a text ends outside of strings. -/
theorem settles_assembled : Assembled Settles where
  nothing := settles_nil
  compact h := h.settles
  field {key text} h := by
    rw [String.toList_append]
    exact settles_append (label_passes key).settles h
  bracketed := settles_bracketed
  braced := settles_braced

/-- A gap somewhere below is a gap in the text. -/
theorem direct_breaks {s q : Schema} {v w : Value} (h : s.Meets v q w) :
    q.Gap w → s.Along CopiesNoString v → Breaks (s.direct .json v).toList := by
  induction h with
  | here s v =>
    rintro ⟨items, guard, entries, hNode, hUndefined, rfl, hTwo⟩ -
    -- the items leave nothing between the commas
    have hEmpty : ∀ part ∈ (entries.map (items.direct .json)).map String.toList, part = [] := by
      intro part hPart
      obtain ⟨text, hText, rfl⟩ := List.mem_map.mp hPart
      obtain ⟨entry, -, rfl⟩ := List.mem_map.mp hText
      rw [direct_of_isUndefined hUndefined]
      rfl
    rw [direct_eq, hNode, Node.direct, guardedText_of_not_hits (guardHits_array ..),
      Value.joinedText, toList_bracketed]
    exact breaks_of_empty_items hEmpty (by rwa [List.length_map, List.length_map])
  | @property s q v w properties guard key property hNode hHits hMem hDefined hPresent _ ih =>
    intro hGap hRaw
    have hBelow := ih hGap (hRaw.property hNode hHits hMem hDefined hPresent)
    -- the gap is in one field, and the fields in front of it end outside of strings
    have hField : label key ++ property.direct .json (v.get key) ∈
        directFields .json properties v := by
      refine (mem_directFields .json).mpr ⟨(key, property), hMem, ?_⟩
      refine (mem_directField .json).mpr ⟨hDefined, ?_⟩
      rw [hPresent, if_neg Bool.false_ne_true]
    have hSettle := fields_assembled settles_assembled hNode hHits hRaw fun part _ =>
      direct_assembled settles_assembled part
    rw [direct_eq, hNode, Node.direct, guardedText_of_not_hits hHits]
    refine breaks_braced hSettle hField ?_
    rw [String.toList_append]
    exact breaks_append_right (label_passes key).settles hBelow
  | @item s q items w entry guard entries hNode hMem _ ih =>
    intro hGap hRaw
    -- the same for an item between its commas
    have hBelow := ih hGap (hRaw.item hNode hMem)
    rw [direct_eq, hNode, Node.direct, guardedText_of_not_hits (guardHits_array ..),
      Value.joinedText]
    refine breaks_bracketed ?_ (List.mem_map_of_mem hMem) hBelow
    intro text hText
    obtain ⟨other, hOther, rfl⟩ := List.mem_map.mp hText
    exact direct_assembled settles_assembled items other (hRaw.item hNode hOther)

end Schema

/-! ## Encoders -/

/-- No value is empty. -/
theorem Grammar.Passes.ne_nil {cs : List Char} (h : Passes cs) : cs ≠ [] := by
  rintro rfl
  exact nomatch h true

/-- **When an encoder writes JSON.** Where no string is copied without its
quotes, the text is a JSON text without control characters exactly if the
root is not undefined alone and no array that is reached has two or more
items that are. Every position that is reached, the root and the items of
arrays among them, writes a value exactly if no node that is reached is
undefined alone. -/
theorem Encoder.encode_isText_iff (s : Schema) (v : Value)
    (hRaw : s.Along Schema.CopiesNoString v) :
    ((∃ text, (Encoder.ofSchema s .json).encode v = .ok text ∧ IsText text.toList ∧
        NoControl text.toList) ↔
      s.isUndefined = false ∧ s.Along (fun q w => ¬ q.Gap w) v) ∧
    (s.Along (fun q w => IsValue Blanks (q.direct .json w).toList) v ↔
      s.Along (fun q _ => q.isUndefined = false) v) := by
  have hEncode := Encoder.encode_eq_direct s .json v
  refine ⟨⟨?_, ?_⟩, ⟨?_, ?_⟩⟩
  · rintro ⟨text, hText, hGrammar, -⟩
    rw [hEncode] at hText
    cases hText
    refine ⟨?_, fun q w hMeets hGap => ?_⟩
    · cases hUndefined : s.isUndefined with
      | false => rfl
      | true =>
        -- the text would be empty, and no JSON text is
        rw [Schema.direct_of_isUndefined hUndefined] at hGrammar
        exact absurd rfl hGrammar.passes.ne_nil
    · -- a gap below would break the text
      exact hGrammar.passes.not_breaks (Schema.direct_breaks hMeets hGap hRaw)
  · rintro ⟨hDefined, hGaps⟩
    have hCompact := s.direct_compact v hDefined hRaw hGaps
    exact ⟨_, hEncode, hCompact.isText, hCompact.noControl⟩
  · intro hValues q w hMeets
    cases hUndefined : q.isUndefined with
    | false => rfl
    | true =>
      have hValue : IsValue Blanks (q.direct .json w).toList := hValues q w hMeets
      rw [Schema.direct_of_isUndefined hUndefined] at hValue
      exact absurd rfl hValue.passes.ne_nil
  · intro hDefined q w hMeets
    have hBelow := hDefined.below hMeets
    -- an array whose items are undefined alone reaches them
    have hGaps : q.Along (fun r x => ¬ r.Gap x) w := by
      rintro r x hReached ⟨items, guard, entries, hNode, hUndefined, rfl, hTwo⟩
      obtain ⟨entry, hEntry⟩ := List.exists_mem_of_length_pos (Nat.lt_of_lt_of_le Nat.two_pos hTwo)
      have hItem := (hBelow.below hReached).item hNode hEntry
      exact nomatch hUndefined.symm.trans hItem.here
    have hCompact := q.direct_compact w (hDefined q w hMeets) (hRaw.below hMeets) hGaps
    exact hCompact.mono blanks_of_noBlanks

/-- An object with a property that is undefined alone and with a number. -/
def Schema.withoutField : Schema :=
  .object [("gone", .scalar .undefined {}), ("count", .scalar .number {})] [] false {}

/-- The number. -/
def Value.counted : Value := .object [("count", .number (.integer 1))]

/-- A property that is undefined alone has no field and does no harm. -/
theorem Encoder.encode_counted :
    Schema.withoutField.Along Schema.CopiesNoString Value.counted ∧
      ∃ text, (Encoder.ofSchema Schema.withoutField .json).encode Value.counted = .ok text ∧
        IsText text.toList ∧ NoControl text.toList := by
  have hNode : Schema.withoutField.node = .object [("gone", .scalar .undefined {}),
      ("count", .scalar .number {})] none := rfl
  have hRaw : Schema.withoutField.Along Schema.CopiesNoString Value.counted := by
    refine .ofObject trivial hNode fun entry hEntry hDefined _ => ?_
    -- one property is undefined, and the other one is a leaf
    rcases List.mem_cons.mp hEntry with rfl | hRest
    · cases hDefined
    · rw [List.mem_singleton.mp hRest]
      exact .ofLeaf rfl rfl
  have hGaps : Schema.withoutField.Along (fun q w => ¬ q.Gap w) Value.counted := by
    refine .ofObject ?_ hNode fun entry hEntry hDefined _ => ?_
    · rintro ⟨items, guard, entries, hLoop, -⟩
      exact nomatch hNode.symm.trans hLoop
    · rcases List.mem_cons.mp hEntry with rfl | hRest
      · cases hDefined
      · rw [List.mem_singleton.mp hRest]
        exact .ofLeaf (fun ⟨_, _, _, hLoop, _⟩ => nomatch hLoop) rfl
  have hText := (Encoder.encode_isText_iff Schema.withoutField Value.counted hRaw).1
  exact ⟨hRaw, hText.mpr ⟨rfl, hGaps⟩⟩

/-- A root that is undefined alone leaves the text empty, and the items of an
array that are leave commas alone in it. Neither is a JSON text. -/
theorem Encoder.encode_undefined_not_isText :
    ((Schema.scalar .undefined {}).Along Schema.CopiesNoString .undefined ∧
      (Encoder.ofSchema (.scalar .undefined {}) .json).encode .undefined = .ok "" ∧
      ¬ IsText "".toList) ∧
    ((Schema.array (.scalar .undefined {}) {}).Along Schema.CopiesNoString
        (.array [.undefined, .undefined]) ∧
      (Encoder.ofSchema (.array (.scalar .undefined {}) {}) .json).encode
        (.array [.undefined, .undefined]) = .ok "[,]" ∧
      ¬ IsText "[,]".toList) := by
  have hLoop : (Schema.array (.scalar .undefined {}) {}).node =
      .loop (.scalar .undefined {}) none := rfl
  refine ⟨⟨.ofLeaf trivial rfl, ?_, ?_⟩, ⟨.ofLoop trivial hLoop ?_, ?_, ?_⟩⟩
  · rw [Encoder.encode_eq_direct, Schema.direct_of_isUndefined rfl]
  · exact fun hText => absurd rfl hText.passes.ne_nil
  · exact fun _ _ => .ofLeaf trivial rfl
  · rw [Encoder.encode_eq_direct, Schema.direct_eq, hLoop, Node.direct, guardedText_none,
      Value.joinedText, List.map_cons, List.map_cons, List.map_nil,
      Schema.direct_of_isUndefined rfl]
    rfl
  · -- nothing stands in front of the comma
    exact fun hText => hText.passes.not_breaks fun _ => rfl

end JsonStencil
