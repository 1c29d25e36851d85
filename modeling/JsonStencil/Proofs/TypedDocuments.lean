import JsonStencil.Proofs.DocumentTexts
import JsonStencil.Proofs.OrderedFields

/-!
# Canonical documents in typed form

A canonical document is read keyword by keyword. Its keywords have the shapes
that they should have, and no object in it repeats a key, so that nothing is
lost, except that a default of null counts as none. What is read is the typed
form that this module writes down for every schema.

Main definitions:

* `Json.KeysDistinct` — no object inside a JSON value repeats a key.
* `Schema.typed` — the typed form of the canonical document.

Main results:

* `Json.distinct_eq_self` — without repeated keys nothing is settled.
* `Schema.ofJson_document` — the document is read as the typed form.
-/

namespace JsonStencil

/-! ## Nothing to settle -/

namespace Json

mutual

/-- No object repeats a key. -/
def KeysDistinct : Json → Prop
  | .array items => KeysDistinctInItems items
  | .object members => (Fields.keys members).Nodup ∧ KeysDistinctInMembers members
  | _ => True

/-- Nor in any item. -/
def KeysDistinctInItems : List Json → Prop
  | [] => True
  | item :: rest => KeysDistinct item ∧ KeysDistinctInItems rest

/-- Nor in any member. -/
def KeysDistinctInMembers : List (String × Json) → Prop
  | [] => True
  | (_, value) :: rest => KeysDistinct value ∧ KeysDistinctInMembers rest

end

mutual

/-- Whether an object repeats a key is found by looking at every object. -/
def decideKeysDistinct : (j : Json) → Decidable j.KeysDistinct
  | .null | .bool _ | .number _ | .string _ => .isTrue trivial
  | .array items => decideKeysDistinctInItems items
  | .object members =>
    have := decideKeysDistinctInMembers members
    inferInstanceAs (Decidable ((Fields.keys members).Nodup ∧ KeysDistinctInMembers members))

/-- Item by item. -/
def decideKeysDistinctInItems : (items : List Json) → Decidable (KeysDistinctInItems items)
  | [] => .isTrue trivial
  | item :: rest =>
    have := decideKeysDistinct item
    have := decideKeysDistinctInItems rest
    inferInstanceAs (Decidable (KeysDistinct item ∧ KeysDistinctInItems rest))

/-- Member by member. -/
def decideKeysDistinctInMembers :
    (members : List (String × Json)) → Decidable (KeysDistinctInMembers members)
  | [] => .isTrue trivial
  | (_, value) :: rest =>
    have := decideKeysDistinct value
    have := decideKeysDistinctInMembers rest
    inferInstanceAs (Decidable (KeysDistinct value ∧ KeysDistinctInMembers rest))

end

instance : DecidablePred KeysDistinct := decideKeysDistinct

/-- Settling members is putting the settled ones. -/
theorem distinctMembers_eq_putAll (members settled : List (String × Json)) :
    distinctMembers members settled =
      Fields.putAll settled (members.map fun entry => (entry.1, entry.2.distinct)) := by
  induction members generalizing settled with
  | nil => rw [distinctMembers]; rfl
  | cons entry rest ih =>
    obtain ⟨key, value⟩ := entry
    rw [distinctMembers, ih, List.map_cons, Fields.putAll, Fields.putAll, List.foldl_cons]

mutual

/-- A value without repeated keys is settled. -/
theorem distinct_eq_self : ∀ j : Json, j.KeysDistinct → j.distinct = j
  | .null, _ | .bool _, _ | .number _, _ | .string _, _ => rfl
  | .array items, h => by
    rw [KeysDistinct] at h
    rw [distinct, distinctItems_eq_self items h]
  | .object members, h => by
    rw [KeysDistinct] at h
    rw [distinct, distinctMembers_eq_putAll, distinct_members_eq_self members h.2]
    exact congrArg Json.object (Fields.ofPairs_eq_self h.1)

/-- Item by item. -/
theorem distinctItems_eq_self : ∀ items : List Json, KeysDistinctInItems items →
    distinctItems items = items
  | [], _ => rfl
  | item :: rest, h => by
    rw [distinctItems, distinct_eq_self item h.1, distinctItems_eq_self rest h.2]

/-- Member by member. -/
theorem distinct_members_eq_self : ∀ members : List (String × Json),
    KeysDistinctInMembers members →
      (members.map fun entry => (entry.1, entry.2.distinct)) = members
  | [], _ => rfl
  | (key, value) :: rest, h => by
    rw [List.map_cons, distinct_eq_self value h.1, distinct_members_eq_self rest h.2]

end

end Json

/-! ## The typed form -/

/-- The default that a document brings back; null counts as none. -/
def Marks.kept (marks : Marks) : Option Json :=
  match marks.default with
  | some .null => none
  | default => default

namespace Schema

mutual

/-- The typed form of the canonical document. -/
def typed : Schema → Document
  | .scalar kind marks =>
    { type := some (.one kind.typeName), format := kind.format, default := marks.kept }
  | .object properties _ additional marks =>
    { type := some (.one "object"), properties := some (typedProperties properties)
      required := some (requiredKeys properties)
      additionalProperties := if additional then some (.flag true) else none
      default := marks.kept }
  | .array items marks =>
    { type := some (.one "array"), items := some (.one (typed items)), default := marks.kept }
  | .union members marks => { anyOf := some (typedMembers members), default := marks.kept }
  | .intersection members marks => { allOf := some (typedMembers members), default := marks.kept }

/-- The typed form of every member. -/
def typedMembers : List Schema → List Document
  | [] => []
  | member :: rest => typed member :: typedMembers rest

/-- The typed form of every property under its key. -/
def typedProperties : List (String × Schema) → List (String × Document)
  | [] => []
  | (key, property) :: rest => (key, typed property) :: typedProperties rest

end

/-- The keys are those of the properties. -/
theorem keys_typedProperties (properties : List (String × Schema)) :
    Fields.keys (typedProperties properties) = Fields.keys properties := by
  induction properties with
  | nil => rfl
  | cons entry rest ih => rw [typedProperties, Fields.keys_cons, Fields.keys_cons, ih]

/-! ## Keyword by keyword -/

section Keywords

open Document

variable {seen : List Keyword} {d d' : Document} {key : String} {keyword : Keyword} {value : Json}
  {rest : List (String × Json)}

/-- A keyword that has not been seen is taken in. -/
theorem ofMembers_cons (hKey : Keyword.ofName? key = some keyword) (hNew : keyword ∉ seen)
    (hValue : withKeyword d keyword value = .ok d') :
    ofMembers seen d ((key, value) :: rest) = ofMembers (keyword :: seen) d' rest := by
  rw [ofMembers, hKey]
  dsimp only
  rw [if_neg hNew, hValue]
  rfl

/-- A default is the last keyword. -/
theorem ofMembers_default {marks : Marks} (hNew : Keyword.default ∉ seen)
    (hAbsent : d.default = none) (hDistinct : ∀ default ∈ marks.default, default.KeysDistinct) :
    ofMembers seen d (defaultMember marks) = .ok { d with default := marks.kept } := by
  have hSame : { d with default := none } = d := by
    cases d
    cases hAbsent
    rfl
  unfold defaultMember Marks.kept
  cases hDefault : marks.default with
  | none =>
    rw [ofMembers]
    exact congrArg Except.ok hSame.symm
  | some default =>
    have hSettled := Json.distinct_eq_self default (hDistinct default hDefault)
    -- a default of null is read as none
    dsimp only
    cases default with
    | null =>
      rw [ofMembers_cons rfl hNew rfl, ofMembers]
      exact congrArg Except.ok hSame.symm
    | _ =>
      rw [ofMembers_cons rfl hNew rfl, ofMembers, hSettled]

/-- A list of strings is read as such. -/
theorem stringsFrom_strings (position : Nat) (names : List String) :
    stringsFrom position (names.map .string) = .ok names := by
  induction names generalizing position with
  | nil => rfl
  | cons name rest ih =>
    rw [List.map_cons, stringsFrom, ih]
    rfl

/-- Required keys are a list of strings. -/
theorem withKeyword_required (names : List String) :
    withKeyword d .required (.array (names.map .string)) =
      .ok { d with required := some names } := by
  rw [withKeyword, stringsFrom_strings]
  rfl

/-- Properties are documents under distinct keys. -/
theorem withKeyword_properties {members : List (String × Json)}
    {pairs : List (String × Document)} (h : pairsOf members = .ok pairs)
    (hKeys : (Fields.keys pairs).Nodup) :
    withKeyword d .properties (.object members) = .ok { d with properties := some pairs } := by
  rw [withKeyword, h]
  exact congrArg (fun found => Except.ok { d with properties := some found })
    (Fields.ofPairs_eq_self hKeys)

/-- The items of an array are one document. -/
theorem withKeyword_items {members : List (String × Json)} {items : Document}
    (h : ofJson (.object members) = .ok items) :
    withKeyword d .items (.object members) = .ok { d with items := some (.one items) } := by
  rw [ofJson] at h
  rw [withKeyword, h]
  rfl

/-- A choice is a list of documents. -/
theorem withKeyword_anyOf {members : List Json} {documents : List Document}
    (h : documentsFrom 0 members = .ok documents) :
    withKeyword d .anyOf (.array members) = .ok { d with anyOf := some documents } := by
  rw [withKeyword, h]
  rfl

/-- So is a conjunction. -/
theorem withKeyword_allOf {members : List Json} {documents : List Document}
    (h : documentsFrom 0 members = .ok documents) :
    withKeyword d .allOf (.array members) = .ok { d with allOf := some documents } := by
  rw [withKeyword, h]
  rfl

end Keywords

/-! ## Whole documents -/

/-- No object inside the default of a node repeats a key. -/
def DefaultDistinct (s : Schema) : Prop := ∀ default ∈ s.default, default.KeysDistinct

section Documents

open Document

mutual

/-- The canonical document is read as the typed form. -/
theorem ofJson_document : ∀ s : Schema, s.Everywhere KeysDistinct → s.Everywhere DefaultDistinct →
    ofJson s.document = .ok s.typed
  | .scalar kind marks, _, hDefaults => by
    rw [document, scalarMembers_eq, typed, ofJson, typeMember, List.cons_append,
      ofMembers_cons rfl List.not_mem_nil rfl]
    -- the members are read in turn, and the default comes last if there is one
    cases kind.format with
    | none => exact ofMembers_default (by decide) rfl hDefaults
    | some format =>
      rw [formatMember, List.singleton_append, ofMembers_cons rfl (by decide) rfl]
      exact ofMembers_default (by decide) rfl hDefaults
  | .object properties _ additional marks, hKeys, hDefaults => by
    have hPairs := pairsOf_propertyDocuments properties hKeys.2 hDefaults.2
    have hDistinct : (Fields.keys (typedProperties properties)).Nodup := by
      rw [keys_typedProperties]
      exact hKeys.1
    rw [document, typed, ofJson, typeMember]
    simp only [List.cons_append, List.nil_append]
    rw [ofMembers_cons rfl List.not_mem_nil rfl,
      ofMembers_cons rfl (by decide) (withKeyword_properties hPairs hDistinct),
      ofMembers_cons rfl (by decide) (withKeyword_required _)]
    -- closed objects do not speak of additional properties
    cases additional with
    | false => exact ofMembers_default (by decide) rfl hDefaults.1
    | true =>
      rw [if_pos rfl, List.singleton_append, ofMembers_cons rfl (by decide) rfl]
      exact ofMembers_default (by decide) rfl hDefaults.1
  | .array items marks, hKeys, hDefaults => by
    have hItems := ofJson_document items hKeys.2 hDefaults.2
    rw [document_eq] at hItems
    -- the items are an object, so they are read as one schema and not as a list
    rw [document, typed, ofJson, typeMember, document_eq items]
    simp only [List.cons_append, List.nil_append]
    rw [ofMembers_cons rfl List.not_mem_nil rfl,
      ofMembers_cons rfl (by decide) (withKeyword_items hItems)]
    exact ofMembers_default (by decide) rfl hDefaults.1
  | .union members marks, hKeys, hDefaults => by
    have hMembers := documentsFrom_memberDocuments 0 members hKeys.2 hDefaults.2
    rw [document, typed, ofJson,
      ofMembers_cons rfl List.not_mem_nil (withKeyword_anyOf hMembers)]
    exact ofMembers_default (by decide) rfl hDefaults.1
  | .intersection members marks, hKeys, hDefaults => by
    have hMembers := documentsFrom_memberDocuments 0 members hKeys.2 hDefaults.2
    rw [document, typed, ofJson,
      ofMembers_cons rfl List.not_mem_nil (withKeyword_allOf hMembers)]
    exact ofMembers_default (by decide) rfl hDefaults.1

/-- The documents of members are read one by one. -/
theorem documentsFrom_memberDocuments : ∀ (position : Nat) (members : List Schema),
    EverywhereInMembers KeysDistinct members → EverywhereInMembers DefaultDistinct members →
      documentsFrom position (memberDocuments members) = .ok (typedMembers members)
  | _, [], _, _ => rfl
  | position, member :: rest, hKeys, hDefaults => by
    rw [memberDocuments, typedMembers, documentsFrom, ofJson_document member hKeys.1 hDefaults.1,
      documentsFrom_memberDocuments (position + 1) rest hKeys.2 hDefaults.2]
    rfl

/-- So are those of properties. -/
theorem pairsOf_propertyDocuments : ∀ properties : List (String × Schema),
    EverywhereInProperties KeysDistinct properties →
    EverywhereInProperties DefaultDistinct properties →
      pairsOf (propertyDocuments properties) = .ok (typedProperties properties)
  | [], _, _ => rfl
  | (key, property) :: rest, hKeys, hDefaults => by
    rw [propertyDocuments, typedProperties, pairsOf, ofJson_document property hKeys.1 hDefaults.1,
      pairsOf_propertyDocuments rest hKeys.2 hDefaults.2]
    rfl

end

end Documents

end Schema

end JsonStencil
