import JsonStencil.Proofs.Alike
import JsonStencil.Proofs.Everywhere
import JsonStencil.Proofs.UniqueReading
import JsonStencil.Schema.Document
import JsonStencil.Schema.OfDocument

/-!
# What the text of a document tells

The text of a canonical document tells the form of every node, its keys, its
kind and the text of its default. It also tells which properties are optional,
because the keys of an object are distinct and the required ones are listed.
The one thing that may be mistaken is a kind: an unknown type may bear the
name of a scalar. Where none does, two schemas with the same text are alike.

Main definitions:

* `Schema.keywords` — the members of a document, the default left aside.
* `Schema.Form` — the forms of nodes, as the keywords tell them apart.
* `Schema.Unshadowed` — no unknown type bears the name of a scalar.

Main results:

* `Schema.document_eq` — a document is its keywords with the default behind.
* `Schema.optionals_eq` — the required keys tell which properties are optional.
* `Schema.alike_of_documentText` — schemas with the same text are alike.
-/

namespace JsonStencil

/-! ## Names of scalars -/

namespace Scalar

/-- The name under which the document of a scalar gives its type. -/
def typeName : Scalar → String
  | .string _ => "string"
  | .number => "number"
  | .boolean => "boolean"
  | .bigint => "bigint"
  | .null => "null"
  | .undefined => "undefined"
  | .date => "Date"
  | .other name => name

/-- The format of a string. -/
def format : Scalar → Option String
  | .string format => format
  | _ => none

/-- The names of the scalars that the encoder knows. -/
def names : List String :=
  ["string", "number", "boolean", "bigint", "null", "undefined", "Date"]

/-- A scalar is known by its name, or it is an unknown type. -/
theorem mem_names_or_eq_other (kind : Scalar) :
    kind.typeName ∈ names ∨ kind = .other kind.typeName := by
  cases kind with
  | other name => exact Or.inr rfl
  | _ => exact Or.inl (by simp [typeName, names])

/-- An unknown type has a name of its own. -/
def Unshadowed : Scalar → Prop
  | .other name => name ∉ names
  | _ => True

end Scalar

namespace Schema

/-- The keyword of a format, if there is one. -/
def formatMember : Option String → List (String × Json)
  | some format => [("format", .string format)]
  | none => []

/-- The document of a scalar gives its type, and its format if there is one. -/
theorem scalarMembers_eq (kind : Scalar) :
    scalarMembers kind = typeMember kind.typeName :: formatMember kind.format := by
  cases kind with
  | string format => cases format <;> rfl
  | _ => rfl

/-- A type name and a format stand for the scalar that has them, unless it is
an unknown type under the name of a known one. -/
theorem scalarOf_typeName {kind : Scalar} (h : kind.Unshadowed)
    (hInteger : kind ≠ .other "integer") : scalarOf kind.typeName kind.format = kind := by
  cases kind with
  | other name =>
    rw [Scalar.Unshadowed, Scalar.names] at h
    simp only [List.mem_cons, List.not_mem_nil, or_false, not_or] at h
    obtain ⟨hString, hNumber, hBoolean, hBigint, hNull, hUndefined, hDate⟩ := h
    have hName : name ≠ "integer" := fun hName => hInteger (congrArg Scalar.other hName)
    rw [Scalar.typeName, scalarOf, if_neg hString, if_neg (not_or.mpr ⟨hNumber, hName⟩),
      if_neg hBoolean, if_neg hBigint, if_neg hNull, if_neg hUndefined, if_neg hDate]
  | _ => rfl

/-- A scalar under a name that no known one has is an unknown type. -/
theorem eq_other_of_typeName {kind : Scalar} {name : String} (h : kind.typeName = name)
    (hName : name ∉ Scalar.names) : kind = .other name := by
  subst h
  exact kind.mem_names_or_eq_other.resolve_left hName

/-- Scalars with the same name and format are the same. -/
theorem scalar_eq {kind other : Scalar} (h : kind.Unshadowed) (hOther : other.Unshadowed)
    (hName : kind.typeName = other.typeName) (hFormat : kind.format = other.format) :
    kind = other := by
  -- an unknown type under the name `integer` is the one that its name does not give back
  by_cases hInteger : kind.typeName = "integer"
  · have hOtherInteger : other.typeName = "integer" := hName ▸ hInteger
    rw [eq_other_of_typeName hInteger (by decide),
      eq_other_of_typeName hOtherInteger (by decide)]
  · have hKind : kind ≠ .other "integer" := fun hKind => hInteger (by rw [hKind]; rfl)
    have hOtherKind : other ≠ .other "integer" := fun hKind =>
      hInteger (by rw [hName, hKind]; rfl)
    rw [← scalarOf_typeName h hKind, ← scalarOf_typeName hOther hOtherKind, hName, hFormat]

/-! ## Keywords -/

/-- The members of a node's document, the default left aside. -/
def keywords : Schema → List (String × Json)
  | .scalar kind _ => scalarMembers kind
  | .object properties _ additional _ =>
    [typeMember "object", ("properties", .object (propertyDocuments properties)),
      ("required", .array ((requiredKeys properties).map .string))] ++
      (if additional then [("additionalProperties", .bool true)] else [])
  | .array items _ => [typeMember "array", ("items", items.document)]
  | .union members _ => [("anyOf", .array (memberDocuments members))]
  | .intersection members _ => [("allOf", .array (memberDocuments members))]

/-- A document is its keywords with the default behind. -/
theorem document_eq (s : Schema) : s.document = .object (s.keywords ++ defaultMember s.marks) := by
  cases s <;> (rw [document]; rfl)

/-- No keyword is the default. -/
theorem key_ne_default {s : Schema} {entry : String × Json} (h : entry ∈ s.keywords) :
    entry.1 ≠ "default" := by
  -- the keys of every form are known, whatever is under them
  have hKeys : ∀ key ∈ Fields.keys s.keywords, key ≠ "default" := by
    cases s with
    | scalar kind _ =>
      rw [keywords, scalarMembers_eq]
      cases kind.format with
      | none => exact (by decide : ∀ key ∈ ["type"], key ≠ "default")
      | some _ => exact (by decide : ∀ key ∈ ["type", "format"], key ≠ "default")
    | object _ _ additional _ =>
      cases additional with
      | false => exact (by decide : ∀ key ∈ ["type", "properties", "required"], key ≠ "default")
      | true =>
        exact (by decide : ∀ key ∈ ["type", "properties", "required", "additionalProperties"],
          key ≠ "default")
    | array _ _ => exact (by decide : ∀ key ∈ ["type", "items"], key ≠ "default")
    | union _ _ => exact (by decide : ∀ key ∈ ["anyOf"], key ≠ "default")
    | intersection _ _ => exact (by decide : ∀ key ∈ ["allOf"], key ≠ "default")
  exact hKeys _ (List.mem_map_of_mem h)

/-- The text of a document tells the keywords apart from the default. -/
theorem keywords_of_documentText {s t : Schema} (h : s.documentText = t.documentText) :
    Json.textsByKey s.keywords = Json.textsByKey t.keywords ∧ s.marks.Alike t.marks := by
  have hKept (u : Schema) : (Json.textsByKey u.keywords).filter (·.1 != "default") =
      Json.textsByKey u.keywords := by
    refine List.filter_eq_self.mpr fun entry hEntry => ?_
    obtain ⟨member, hMember, rfl⟩ := List.mem_map.mp hEntry
    exact bne_iff_ne.mpr (key_ne_default hMember)
  have hDropped (marks : Marks) :
      (Json.textsByKey (defaultMember marks)).filter (·.1 != "default") = [] := by
    unfold defaultMember
    cases marks.default <;> rfl
  rw [documentText, documentText, document_eq, document_eq] at h
  have hTexts := Json.object_text_inj h
  rw [Json.textsByKey_append, Json.textsByKey_append] at hTexts
  -- no keyword has the key of a default, so the two parts are told apart
  have hKeywords := congrArg (List.filter (·.1 != "default")) hTexts
  rw [List.filter_append, List.filter_append, hKept, hKept, hDropped, hDropped,
    List.append_nil, List.append_nil] at hKeywords
  rw [hKeywords] at hTexts
  have hDefaults := List.append_cancel_left hTexts
  refine ⟨hKeywords, ?_⟩
  unfold Marks.Alike
  unfold defaultMember at hDefaults
  -- the default is what is left, and there is one on both sides or on neither
  generalize s.marks.default = default at hDefaults
  generalize t.marks.default = other at hDefaults
  cases default <;> cases other
  · rfl
  · cases hDefaults
  · cases hDefaults
  · exact congrArg some (Prod.mk.inj (List.head_eq_of_cons_eq hDefaults)).2

/-! ## Forms -/

/-- The forms of schema nodes. -/
inductive Form where
  | scalar
  | object
  | array
  | union
  | intersection
deriving DecidableEq, Repr

/-- The form of a node. -/
def form : Schema → Form
  | .scalar _ _ => .scalar
  | .object _ _ _ _ => .object
  | .array _ _ => .array
  | .union _ _ => .union
  | .intersection _ _ => .intersection

/-- The form that the keys of a document tell. -/
def Form.ofKeys : List String → Form
  | _ :: "properties" :: _ => .object
  | _ :: "items" :: _ => .array
  | "anyOf" :: _ => .union
  | "allOf" :: _ => .intersection
  | _ => .scalar

/-- The keys of a document tell the form of its node. -/
theorem form_eq_ofKeys (s : Schema) : s.form = Form.ofKeys (Fields.keys s.keywords) := by
  cases s with
  | scalar kind _ =>
    rw [keywords, scalarMembers_eq]
    cases kind.format <;> rfl
  | _ => rfl

/-- Keywords with the same texts are those of nodes of one form. -/
theorem form_eq_of_texts {s t : Schema}
    (h : Json.textsByKey s.keywords = Json.textsByKey t.keywords) : s.form = t.form := by
  rw [form_eq_ofKeys, form_eq_ofKeys, ← Json.keys_textsByKey, ← Json.keys_textsByKey, h]

/-! ## Required keys -/

/-- Properties keep their keys in the document. -/
theorem keys_propertyDocuments (properties : List (String × Schema)) :
    Fields.keys (propertyDocuments properties) = Fields.keys properties := by
  induction properties with
  | nil => rfl
  | cons entry rest ih =>
    rw [propertyDocuments, Fields.keys_cons, Fields.keys_cons, ih]

/-- Among distinct keys the required ones are those without an optional
marker. -/
theorem contains_requiredKeys {properties : List (String × Schema)}
    (hKeys : (Fields.keys properties).Nodup) {entry : String × Schema}
    (h : entry ∈ properties) : (requiredKeys properties).contains entry.1 = !entry.2.optional := by
  rw [Bool.eq_iff_iff, List.contains_iff_mem, Bool.not_eq_true']
  constructor
  · intro hRequired
    obtain ⟨other, hOther, hKey⟩ := List.mem_map.mp hRequired
    obtain ⟨hMember, hMarker⟩ := List.mem_filter.mp hOther
    rw [Fields.eq_of_key_eq hKeys h hMember hKey.symm]
    exact (Bool.not_eq_true' _).mp hMarker
  · intro hMarker
    exact List.mem_map_of_mem (List.mem_filter.mpr ⟨h, by rw [hMarker]; rfl⟩)

/-- The required keys tell which properties are optional. -/
theorem optionals_eq {properties : List (String × Schema)}
    (hKeys : (Fields.keys properties).Nodup) :
    properties.map (fun entry => entry.2.optional) =
      (Fields.keys properties).map fun key => !(requiredKeys properties).contains key := by
  rw [Fields.keys, List.map_map]
  refine List.map_congr_left fun entry hEntry => ?_
  rw [Function.comp_apply, contains_requiredKeys hKeys hEntry, Bool.not_not]

/-! ## Schemas with the same text -/

/-- No unknown type bears the name of a known scalar. -/
def Unshadowed : Schema → Prop
  | .scalar kind _ => kind.Unshadowed
  | _ => True

/-- The texts of names tell the names. -/
theorem itemTexts_string_inj {names others : List String}
    (h : Json.itemTexts (names.map .string) = Json.itemTexts (others.map .string)) :
    names = others := by
  induction names generalizing others with
  | nil =>
    cases others with
    | nil => rfl
    | cons _ _ => cases h
  | cons name rest ih =>
    cases others with
    | nil => cases h
    | cons other more =>
      rw [List.map_cons, List.map_cons, Json.itemTexts, Json.itemTexts, List.cons.injEq] at h
      rw [Json.string_text_inj h.1, ih h.2]

/-- What the texts of two scalars' keywords tell. -/
theorem scalar_of_keywords {kind other : Scalar} (h : kind.Unshadowed)
    (hOther : other.Unshadowed)
    (hTexts : Json.textsByKey (scalarMembers kind) = Json.textsByKey (scalarMembers other)) :
    kind = other := by
  rw [scalarMembers_eq, scalarMembers_eq, Json.textsByKey, Json.textsByKey, List.map_cons,
    List.map_cons, List.cons.injEq, Prod.mk.injEq] at hTexts
  -- the first keyword tells the name, and the second one the format, if there is one
  obtain ⟨⟨-, hName⟩, hFormat⟩ := hTexts
  refine scalar_eq h hOther (Json.string_text_inj hName) ?_
  generalize kind.format = format at hFormat
  generalize other.format = format' at hFormat
  cases format <;> cases format'
  · rfl
  · cases hFormat
  · cases hFormat
  · exact congrArg some
      (Json.string_text_inj (Prod.mk.inj (List.head_eq_of_cons_eq hFormat)).2)

/-- What the texts of two objects' keywords tell. -/
theorem object_of_keywords {properties others : List (String × Schema)} {additional wide : Bool}
    {required wanted : List String} {a b : Marks}
    (hTexts : Json.textsByKey (keywords (.object properties required additional a)) =
      Json.textsByKey (keywords (.object others wanted wide b))) :
    Json.textsByKey (propertyDocuments properties) = Json.textsByKey (propertyDocuments others) ∧
      requiredKeys properties = requiredKeys others ∧ additional = wide := by
  rw [keywords, keywords, Json.textsByKey_append, Json.textsByKey_append] at hTexts
  simp only [Json.textsByKey, List.map_cons, List.map_nil, List.cons_append, List.nil_append,
    List.cons.injEq, Prod.mk.injEq, true_and] at hTexts
  obtain ⟨hProperties, hRequired, hAdditional⟩ := hTexts
  refine ⟨Json.object_text_inj hProperties,
    itemTexts_string_inj (Json.array_text_inj hRequired), ?_⟩
  -- the keyword for additional properties is there or it is not
  have hLength := congrArg List.length hAdditional
  cases additional <;> cases wide
  · rfl
  · cases hLength
  · cases hLength
  · rfl

mutual

/-- Schemas with the same document text are alike, where keys are distinct
and no unknown type bears the name of a known scalar. -/
theorem alike_of_documentText : ∀ s t : Schema, s.Everywhere KeysDistinct →
    s.Everywhere Unshadowed → t.Everywhere KeysDistinct → t.Everywhere Unshadowed →
      s.documentText = t.documentText → s.Alike t
  -- the text tells the form of the other node first, and then its parts
  | .scalar kind a, t, _, hs, _, ht, h => by
    obtain ⟨hTexts, hMarks⟩ := keywords_of_documentText h
    have hForm := form_eq_of_texts hTexts
    cases t with
    | scalar other b =>
      rw [scalar_of_keywords hs ht hTexts]
      exact .scalar other hMarks
    | _ => cases hForm
  | .object properties _ additional a, t, hKeys, hs, hKeys', ht, h => by
    obtain ⟨hTexts, hMarks⟩ := keywords_of_documentText h
    have hForm := form_eq_of_texts hTexts
    cases t with
    | object others _ wide b =>
      obtain ⟨hProperties, hRequired, hAdditional⟩ := object_of_keywords hTexts
      -- with the same keys, the required ones tell the same properties optional
      have hSameKeys := congrArg Fields.keys hProperties
      rw [Json.keys_textsByKey, Json.keys_textsByKey, keys_propertyDocuments,
        keys_propertyDocuments] at hSameKeys
      have hOptionals : properties.map (fun entry => entry.2.optional) =
          others.map fun entry => entry.2.optional := by
        rw [optionals_eq hKeys.1, optionals_eq hKeys'.1, hRequired, hSameKeys]
      rw [hAdditional]
      exact .object _ _ wide (alikeProperties_of_texts properties others hKeys.2 hs.2 hKeys'.2
        ht.2 hProperties hOptionals) hMarks
    | _ => cases hForm
  | .array items a, t, hKeys, hs, hKeys', ht, h => by
    obtain ⟨hTexts, hMarks⟩ := keywords_of_documentText h
    have hForm := form_eq_of_texts hTexts
    cases t with
    | array others b =>
      rw [keywords, keywords] at hTexts
      have hItems := (Prod.mk.inj (List.head_eq_of_cons_eq (List.tail_eq_of_cons_eq hTexts))).2
      exact .array (alike_of_documentText items others hKeys.2 hs.2 hKeys'.2 ht.2 hItems) hMarks
    | _ => cases hForm
  | .union members a, t, hKeys, hs, hKeys', ht, h => by
    obtain ⟨hTexts, hMarks⟩ := keywords_of_documentText h
    have hForm := form_eq_of_texts hTexts
    cases t with
    | union others b =>
      have hMembers := (Prod.mk.inj (List.head_eq_of_cons_eq hTexts)).2
      exact .union (alikeMembers_of_texts members others hKeys.2 hs.2 hKeys'.2 ht.2
        (Json.array_text_inj hMembers)) hMarks
    | _ => cases hForm
  | .intersection members a, t, hKeys, hs, hKeys', ht, h => by
    obtain ⟨hTexts, hMarks⟩ := keywords_of_documentText h
    have hForm := form_eq_of_texts hTexts
    cases t with
    | intersection others b =>
      have hMembers := (Prod.mk.inj (List.head_eq_of_cons_eq hTexts)).2
      exact .intersection (alikeMembers_of_texts members others hKeys.2 hs.2 hKeys'.2 ht.2
        (Json.array_text_inj hMembers)) hMarks
    | _ => cases hForm

/-- Lists of members with the same texts are alike. -/
theorem alikeMembers_of_texts : ∀ members others : List Schema,
    EverywhereInMembers KeysDistinct members → EverywhereInMembers Unshadowed members →
    EverywhereInMembers KeysDistinct others → EverywhereInMembers Unshadowed others →
      Json.itemTexts (memberDocuments members) = Json.itemTexts (memberDocuments others) →
        AlikeMembers members others
  | [], others, _, _, _, _, h => by
    cases others with
    | nil => exact .nil
    | cons _ _ => cases h
  | member :: rest, others, hKeys, hs, hKeys', ht, h => by
    cases others with
    | nil => cases h
    | cons other more =>
      rw [memberDocuments, memberDocuments, Json.itemTexts, Json.itemTexts, List.cons.injEq] at h
      exact .cons (alike_of_documentText member other hKeys.1 hs.1 hKeys'.1 ht.1 h.1)
        (alikeMembers_of_texts rest more hKeys.2 hs.2 hKeys'.2 ht.2 h.2)

/-- So are properties with the same texts under the same keys, where the same
ones are optional. -/
theorem alikeProperties_of_texts : ∀ properties others : List (String × Schema),
    EverywhereInProperties KeysDistinct properties → EverywhereInProperties Unshadowed properties →
    EverywhereInProperties KeysDistinct others → EverywhereInProperties Unshadowed others →
      Json.textsByKey (propertyDocuments properties) = Json.textsByKey (propertyDocuments others) →
      properties.map (fun entry => entry.2.optional) =
        others.map (fun entry => entry.2.optional) →
        AlikeProperties properties others
  | [], others, _, _, _, _, h, _ => by
    cases others with
    | nil => exact .nil
    | cons _ _ => cases h
  | (key, property) :: rest, others, hKeys, hs, hKeys', ht, h, hOptionals => by
    cases others with
    | nil => cases h
    | cons other more =>
      obtain ⟨name, schema⟩ := other
      rw [propertyDocuments, propertyDocuments, Json.textsByKey, Json.textsByKey, List.map_cons,
        List.map_cons, List.cons.injEq, Prod.mk.injEq] at h
      -- the text tells the key, and the list of required keys the marker
      obtain ⟨⟨rfl, hText⟩, hRest⟩ := h
      rw [List.map_cons, List.map_cons, List.cons.injEq] at hOptionals
      exact .cons key hOptionals.1
        (alike_of_documentText property schema hKeys.1 hs.1 hKeys'.1 ht.1 hText)
        (alikeProperties_of_texts rest more hKeys.2 hs.2 hKeys'.2 ht.2 hRest hOptionals.2)

end

end Schema

end JsonStencil
