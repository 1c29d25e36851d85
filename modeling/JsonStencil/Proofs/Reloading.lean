import JsonStencil.Proofs.Computations
import JsonStencil.Proofs.TypedDocuments

/-!
# Loading canonical documents

The document of a schema is loaded unless a composition in it is empty or an
unknown type is called an array. What comes back is the schema with a few
things settled: the required keys are those of the properties without an
optional marker, a marker stands nowhere but on properties, a default of null
is gone, and an unknown type under a name with a meaning has taken on that
meaning. So a schema comes back equal exactly when all of this was settled
before.

Main definitions:

* `Schema.Loads` / `Schema.reread` — which nodes are loaded, and as what.
* `Schema.Faithful` — the nodes that come back as they were.

Main results:

* `Schema.ofDocumentJson_document` — what is loaded of the document of a
  schema.
* `Schema.same_reread` — when that is equal to the schema.
* `Schema.loads_same_iff` — the schemas that their documents bring back.
-/

namespace JsonStencil

namespace Schema

/-! ## What comes back -/

mutual

/-- What is loaded of the document of a node, under the optional marker that
its object gives it. -/
def reread (optional : Bool) : Schema → Schema
  | .scalar kind marks =>
    if kind.typeName = "object" then .object [] [] false ⟨marks.kept, optional⟩
    else .scalar (scalarOf kind.typeName kind.format) ⟨marks.kept, optional⟩
  | .object properties _ additional marks =>
    .object (rereadProperties properties) (requiredKeys properties) additional
      ⟨marks.kept, optional⟩
  | .array items marks => .array (reread false items) ⟨marks.kept, optional⟩
  | .union members marks => .union (rereadMembers members) ⟨marks.kept, optional⟩
  | .intersection members marks => .intersection (rereadMembers members) ⟨marks.kept, optional⟩

/-- What is loaded of every member. -/
def rereadMembers : List Schema → List Schema
  | [] => []
  | member :: rest => reread false member :: rereadMembers rest

/-- What is loaded of every property. -/
def rereadProperties : List (String × Schema) → List (String × Schema)
  | [] => []
  | (key, property) :: rest => (key, reread property.optional property) :: rereadProperties rest

end

/-- A node whose document has a schema: a composition has members, and no
unknown type is called an array. -/
def Loads : Schema → Prop
  | .scalar kind _ => kind.typeName ≠ "array"
  | .union members _ | .intersection members _ => members ≠ []
  | _ => True

/-- Setting the marker of what comes back is what an object does to its
properties. -/
theorem withMarks_reread (optional marker : Bool) (s : Schema) :
    (s.reread optional).withMarks { (s.reread optional).marks with optional := marker } =
      s.reread marker := by
  cases s with
  | scalar kind marks =>
    rw [reread, reread]
    split <;> rfl
  | _ => rw [reread, reread]; rfl

/-! ## Loading -/

section Loading

variable (path : List String)

/-- A document with a type name alone. -/
theorem ofDocumentAt_scalar (name : String) (format : Option String) (default : Option Json) :
    ofDocumentAt path { type := some (.one name), format, default } =
      if name = "object" then .ok (.object [] [] false { default })
      else if name = "array" then .error (.missingItems path)
      else .ok (.scalar (scalarOf name format) { default }) := by
  rw [ofDocumentAt]
  rfl

/-- A document of an object with its properties. -/
theorem ofDocumentAt_object (properties : List (String × Document)) (required : List String)
    (additional : Bool) (default : Option Json) :
    ofDocumentAt path
        { type := some (.one "object"), properties := some properties, required := some required
          additionalProperties := if additional then some (.flag true) else none, default } =
      (propertiesAt required path properties >>= fun properties =>
        .ok (.object properties required additional { default })) := by
  rw [ofDocumentAt]
  cases additional <;> rfl

/-- A document of an array with its items. -/
theorem ofDocumentAt_array (items : Document) (default : Option Json) :
    ofDocumentAt path { type := some (.one "array"), items := some (.one items), default } =
      (ofDocumentAt (path ++ ["items"]) items >>= fun items => .ok (.array items { default })) := by
  rw [ofDocumentAt]
  rfl

/-- A document that is a choice. -/
theorem ofDocumentAt_union (members : List Document) (default : Option Json) :
    ofDocumentAt path { anyOf := some members, default } =
      (compositionAt .anyOf path members >>= fun members => .ok (.union members { default })) := by
  rw [ofDocumentAt]

/-- A document that is a conjunction. -/
theorem ofDocumentAt_intersection (members : List Document) (default : Option Json) :
    ofDocumentAt path { allOf := some members, default } =
      (compositionAt .allOf path members >>= fun members =>
        .ok (.intersection members { default })) := by
  rw [ofDocumentAt]

end Loading

/-- Properties come back one by one under their keys. -/
theorem rereadProperties_eq_map (properties : List (String × Schema)) :
    rereadProperties properties =
      properties.map fun entry => (entry.1, entry.2.reread entry.2.optional) := by
  induction properties with
  | nil => rfl
  | cons entry rest ih => rw [rereadProperties, ih, List.map_cons]

mutual

/-- The document of a schema is loaded if every node allows it, as the schema
that it brings back. -/
theorem ofDocumentAt_typed : ∀ (path : List String) (s : Schema), s.Everywhere KeysDistinct →
    Yields (ofDocumentAt path s.typed) (s.Everywhere Loads) (s.reread false)
  | path, .scalar kind marks, _ => by
    rw [typed, ofDocumentAt_scalar, reread, Everywhere, Loads]
    -- a type name may be that of an object or an array, which an unknown type bears too
    split
    · next hObject =>
      refine .ok ?_ _
      rw [hObject]
      decide
    · split
      · next hArray => exact .error (not_not_intro hArray) _ _
      · next hArray => exact .ok hArray _
  | path, .object properties _ additional marks, hKeys => by
    have hProperties := propertiesAt_typedProperties (requiredKeys properties) path properties
      hKeys.2 (contains_requiredKeys hKeys.1)
    rw [typed, ofDocumentAt_object, reread]
    exact (hProperties.map _).congr ⟨fun h => ⟨trivial, h⟩, And.right⟩
  | path, .array items marks, hKeys => by
    have hItems := ofDocumentAt_typed (path ++ ["items"]) items hKeys.2
    rw [typed, ofDocumentAt_array, reread]
    exact (hItems.map _).congr ⟨fun h => ⟨trivial, h⟩, And.right⟩
  | path, .union members marks, hKeys => by
    rw [typed, ofDocumentAt_union, reread]
    exact (compositionAt_typedMembers .anyOf path members hKeys.2).map _
  | path, .intersection members marks, hKeys => by
    rw [typed, ofDocumentAt_intersection, reread]
    exact (compositionAt_typedMembers .allOf path members hKeys.2).map _

/-- A composition comes back if it has members and all of them do. -/
theorem compositionAt_typedMembers : ∀ (keyword : Composition) (path : List String)
    (members : List Schema), EverywhereInMembers KeysDistinct members →
      Yields (compositionAt keyword path (typedMembers members))
        (members ≠ [] ∧ EverywhereInMembers Loads members) (rereadMembers members)
  | keyword, path, [], _ => by
    rw [typedMembers, compositionAt]
    exact .error (fun h => h.1 rfl) _ _
  | keyword, path, member :: rest, hKeys => by
    rw [typedMembers, compositionAt, rereadMembers]
    refine ((ofDocumentAt_typed _ member hKeys.1).cons
      (membersAt_typedMembers _ 1 rest hKeys.2) id).congr ?_
    exact ⟨fun h => ⟨List.cons_ne_nil _ _, h⟩, And.right⟩

/-- Members come back in order. -/
theorem membersAt_typedMembers : ∀ (path : List String) (position : Nat) (members : List Schema),
    EverywhereInMembers KeysDistinct members →
      Yields (membersAt path position (typedMembers members))
        (EverywhereInMembers Loads members) (rereadMembers members)
  | path, position, [], _ => by
    rw [typedMembers, membersAt, rereadMembers]
    exact .ok trivial _
  | path, position, member :: rest, hKeys => by
    rw [typedMembers, membersAt, rereadMembers]
    exact (ofDocumentAt_typed _ member hKeys.1).cons
      (membersAt_typedMembers path (position + 1) rest hKeys.2) id

/-- Properties come back, each with the marker that its key is required by. -/
theorem propertiesAt_typedProperties : ∀ (required path : List String)
    (properties : List (String × Schema)), EverywhereInProperties KeysDistinct properties →
      (∀ {entry}, entry ∈ properties → required.contains entry.1 = !entry.2.optional) →
        Yields (propertiesAt required path (typedProperties properties))
          (EverywhereInProperties Loads properties) (rereadProperties properties)
  | required, path, [], _, _ => by
    rw [typedProperties, propertiesAt, rereadProperties]
    exact .ok trivial _
  | required, path, (key, property) :: rest, hKeys, hRequired => by
    -- the property gets back the marker that it had
    have hMarker : (!required.contains key) = property.optional := by
      rw [hRequired (List.mem_cons_self ..), Bool.not_not]
    rw [typedProperties, propertiesAt, rereadProperties, hMarker]
    rw [← withMarks_reread false property.optional property]
    exact (ofDocumentAt_typed _ property hKeys.1).cons
      (propertiesAt_typedProperties required path rest hKeys.2
        fun hEntry => hRequired (List.mem_cons_of_mem _ hEntry))
      fun schema => (key, schema.withMarks { schema.marks with optional := property.optional })

end

/-- The canonical document of a schema is loaded if every node allows it. -/
theorem ofDocumentJson_document {s : Schema} (hKeys : s.Everywhere KeysDistinct)
    (hDefaults : s.Everywhere DefaultDistinct) :
    Yields (ofDocumentJson s.document) (s.Everywhere Loads) (s.reread false) := by
  rw [ofDocumentJson, ofJson_document s hKeys hDefaults]
  exact ofDocumentAt_typed [] s hKeys

end Schema

/-! ## Equality with itself -/

namespace Json

theorem Number.same_self (n : Number) : n.same n = true := by
  cases n with
  | integer value => exact beq_self_eq_true value
  | float value => rw [Number.same, Binary64.same, beq_self_eq_true, Bool.true_or]

mutual

/-- A value without repeated keys is equal to itself. -/
theorem same_self : ∀ j : Json, j.KeysDistinct → j.same j = true
  | .null, _ => rfl
  | .bool value, _ => beq_self_eq_true value
  | .number n, _ => n.same_self
  | .string s, _ => beq_self_eq_true s
  | .array items, h => by
    rw [KeysDistinct] at h
    rw [same]
    exact sameItems_self items h
  | .object members, h => by
    rw [KeysDistinct] at h
    rw [same, beq_self_eq_true, Bool.true_and]
    exact sameMembers_self members h.2 fun hEntry => Fields.lookup_of_mem h.1 hEntry

/-- Item by item. -/
theorem sameItems_self : ∀ items : List Json, KeysDistinctInItems items →
    sameItems items items = true
  | [], _ => rfl
  | item :: rest, h => by
    rw [sameItems, same_self item h.1, sameItems_self rest h.2, Bool.and_true]

/-- Member by member, each looked up under its key. -/
theorem sameMembers_self : ∀ (members : List (String × Json)) {others : List (String × Json)},
    KeysDistinctInMembers members →
      (∀ {entry}, entry ∈ members → others.lookup entry.1 = some entry.2) →
        sameMembers members others = true
  | [], _, _, _ => rfl
  | (key, value) :: rest, _, h, hFound => by
    rw [sameMembers, hFound (List.mem_cons_self ..), sameMembers_self rest h.2
      fun hEntry => hFound (List.mem_cons_of_mem _ hEntry), Bool.and_true]
    exact same_self value h.1

end

end Json

/-! ## What comes back unchanged -/

/-- Marks come back if they are under the marker that the node is given and
their default is not null. -/
theorem Marks.same_kept (marks : Marks)
    (hDistinct : ∀ default ∈ marks.default, default.KeysDistinct) (optional : Bool) :
    marks.same ⟨marks.kept, optional⟩ = true ↔
      marks.optional = optional ∧ marks.default ≠ some .null := by
  rw [Marks.same, Bool.and_eq_true, beq_iff_eq, Marks.kept]
  refine and_congr_right fun _ => ?_
  cases hDefault : marks.default with
  | none => exact ⟨fun _ h => (nomatch h), fun _ => rfl⟩
  | some default =>
    have hSelf := Json.same_self default (hDistinct default hDefault)
    cases default with
    | null => exact ⟨fun h => (nomatch h), fun h => absurd rfl h⟩
    | _ => exact ⟨fun _ h => (nomatch h), fun _ => hSelf⟩

namespace Scalar

/-- The type names that have a meaning in a document. -/
def known : List String := names ++ ["integer", "object", "array"]

/-- An unknown type has a name without a meaning. -/
def Foreign : Scalar → Prop
  | .other name => name ∉ known
  | _ => True

end Scalar

namespace Schema

/-- What a node must be like to come back from its document. -/
def Faithful (s : Schema) : Prop :=
  s.default ≠ some .null ∧
    match s with
    | .scalar kind _ => kind.Foreign
    | .object properties required _ _ => required = requiredKeys properties
    | .array items _ => items.optional = false
    | .union members _ | .intersection members _ =>
      members ≠ [] ∧ ∀ member ∈ members, member.optional = false

/-- A scalar is loaded and comes back as the same kind unless it is an unknown
type under a name with a meaning. -/
theorem foreign_iff (kind : Scalar) : kind.Foreign ↔
    kind.typeName ≠ "array" ∧ kind.typeName ≠ "object" ∧
      scalarOf kind.typeName kind.format = kind := by
  cases kind with
  | other name =>
    constructor
    · intro h
      rw [Scalar.Foreign, Scalar.known, List.mem_append, not_or] at h
      obtain ⟨hNames, hOthers⟩ := h
      simp only [List.mem_cons, List.not_mem_nil, or_false, not_or] at hOthers
      obtain ⟨hInteger, hObject, hArray⟩ := hOthers
      exact ⟨hArray, hObject, scalarOf_typeName hNames fun hEq => hInteger (Scalar.other.inj hEq)⟩
    · rintro ⟨hArray, hObject, hKind⟩ hKnown
      -- every other name with a meaning stands for a known scalar
      simp only [Scalar.known, Scalar.names, List.cons_append, List.nil_append, List.mem_cons,
        List.not_mem_nil, or_false] at hKnown
      rcases hKnown with rfl | rfl | rfl | rfl | rfl | rfl | rfl | rfl | rfl | rfl
      any_goals cases hKind
      · exact hObject rfl
      · exact hArray rfl
  | _ =>
    refine ⟨fun _ => ⟨?_, ?_, rfl⟩, fun _ => trivial⟩
    all_goals simp [Scalar.typeName]

/-- Under its key stands what comes back of a property. -/
theorem lookup_rereadProperties {properties : List (String × Schema)}
    (hKeys : (Fields.keys properties).Nodup) {entry : String × Schema} (h : entry ∈ properties) :
    (rereadProperties properties).lookup entry.1 = some (entry.2.reread entry.2.optional) := by
  rw [rereadProperties_eq_map]
  have hMapped : (Fields.keys (properties.map fun entry =>
      (entry.1, entry.2.reread entry.2.optional))).Nodup := by
    rw [Fields.keys, List.map_map]
    exact hKeys
  exact Fields.lookup_of_mem hMapped (List.mem_map_of_mem h)

mutual

/-- A node is loaded and comes back equal, under the marker that it is given,
if it carries that marker and everything in it is as it must be. -/
theorem same_reread : ∀ (optional : Bool) (s : Schema), s.Everywhere KeysDistinct →
    s.Everywhere DefaultDistinct →
      (s.Everywhere Loads ∧ s.same (s.reread optional) = true ↔
        s.optional = optional ∧ s.Everywhere Faithful)
  | optional, .scalar kind marks, _, hDefaults => by
    -- the place tells the marker, and the default comes back unless it is null
    have hMarks := marks.same_kept hDefaults optional
    have hForeign := foreign_iff kind
    rw [Everywhere, Everywhere, Loads, Faithful, hForeign, reread]
    split
    · next hObject =>
      -- an unknown type called an object comes back as one
      exact ⟨fun h => (nomatch h.2), fun h => absurd hObject h.2.2.2.1⟩
    · next hObject =>
      rw [same, Bool.and_eq_true, hMarks, beq_iff_eq]
      constructor
      · rintro ⟨hArray, hKind, hOptional, hDefault⟩
        exact ⟨hOptional, hDefault, hArray, hObject, hKind.symm⟩
      · rintro ⟨hOptional, hDefault, hArray, -, hKind⟩
        exact ⟨hArray, hKind.symm, hOptional, hDefault⟩
  | optional, .object properties required additional marks, hKeys, hDefaults => by
    have hMarks := marks.same_kept hDefaults.1 optional
    -- properties are compared by key, so each has to be found under its own
    have hProperties := sameProperties_reread properties (rereadProperties properties) hKeys.2
      hDefaults.2 fun hEntry => lookup_rereadProperties hKeys.1 hEntry
    have hLength : properties.length == (rereadProperties properties).length := by
      rw [rereadProperties_eq_map, List.length_map, beq_self_eq_true]
    rw [Everywhere, Everywhere, reread, same, hLength, Bool.true_and, beq_self_eq_true,
      Bool.and_true, Bool.and_eq_true, Bool.and_eq_true, hMarks, beq_iff_eq]
    constructor
    · rintro ⟨⟨-, hLoads⟩, ⟨hSame, hRequired⟩, hOptional, hDefault⟩
      exact ⟨hOptional, ⟨hDefault, hRequired⟩, hProperties.mp ⟨hLoads, hSame⟩⟩
    · rintro ⟨hOptional, ⟨hDefault, hRequired⟩, hFaithful⟩
      obtain ⟨hLoads, hSame⟩ := hProperties.mpr hFaithful
      exact ⟨⟨trivial, hLoads⟩, ⟨hSame, hRequired⟩, hOptional, hDefault⟩
  | optional, .array items marks, hKeys, hDefaults => by
    have hMarks := marks.same_kept hDefaults.1 optional
    have hItems := same_reread false items hKeys.2 hDefaults.2
    rw [Everywhere, Everywhere, reread, same, Bool.and_eq_true, hMarks]
    constructor
    · rintro ⟨⟨-, hLoads⟩, hSame, hOptional, hDefault⟩
      obtain ⟨hMarker, hFaithful⟩ := hItems.mp ⟨hLoads, hSame⟩
      exact ⟨hOptional, ⟨hDefault, hMarker⟩, hFaithful⟩
    · rintro ⟨hOptional, ⟨hDefault, hMarker⟩, hFaithful⟩
      obtain ⟨hLoads, hSame⟩ := hItems.mpr ⟨hMarker, hFaithful⟩
      exact ⟨⟨trivial, hLoads⟩, hSame, hOptional, hDefault⟩
  | optional, .union members marks, hKeys, hDefaults
  | optional, .intersection members marks, hKeys, hDefaults => by
    have hMarks := marks.same_kept hDefaults.1 optional
    -- members are compared one by one, and there has to be one
    have hMembers := sameMembers_reread members hKeys.2 hDefaults.2
    rw [Everywhere, Everywhere, reread, same, Bool.and_eq_true, hMarks]
    constructor
    · rintro ⟨⟨hSome, hLoads⟩, hSame, hOptional, hDefault⟩
      obtain ⟨hMarkers, hFaithful⟩ := hMembers.mp ⟨hLoads, hSame⟩
      exact ⟨hOptional, ⟨hDefault, hSome, hMarkers⟩, hFaithful⟩
    · rintro ⟨hOptional, ⟨hDefault, hSome, hMarkers⟩, hFaithful⟩
      obtain ⟨hLoads, hSame⟩ := hMembers.mpr ⟨hMarkers, hFaithful⟩
      exact ⟨⟨hSome, hLoads⟩, hSame, hOptional, hDefault⟩

/-- Members come back equal if they carry no marker. -/
theorem sameMembers_reread : ∀ members : List Schema, EverywhereInMembers KeysDistinct members →
    EverywhereInMembers DefaultDistinct members →
      (EverywhereInMembers Loads members ∧ sameMembers members (rereadMembers members) = true ↔
        (∀ member ∈ members, member.optional = false) ∧ EverywhereInMembers Faithful members)
  | [], _, _ => ⟨fun _ => ⟨fun _ h => absurd h List.not_mem_nil, trivial⟩, fun _ => ⟨trivial, rfl⟩⟩
  | member :: rest, hKeys, hDefaults => by
    -- no member of a list is optional
    have hFirst := same_reread false member hKeys.1 hDefaults.1
    have hRest := sameMembers_reread rest hKeys.2 hDefaults.2
    rw [EverywhereInMembers, EverywhereInMembers, rereadMembers, sameMembers, Bool.and_eq_true,
      List.forall_mem_cons]
    constructor
    · rintro ⟨⟨hLoads, hOthers⟩, hSame, hSameOthers⟩
      obtain ⟨hMarker, hFaithful⟩ := hFirst.mp ⟨hLoads, hSame⟩
      obtain ⟨hMarkers, hAll⟩ := hRest.mp ⟨hOthers, hSameOthers⟩
      exact ⟨⟨hMarker, hMarkers⟩, hFaithful, hAll⟩
    · rintro ⟨⟨hMarker, hMarkers⟩, hFaithful, hAll⟩
      obtain ⟨hLoads, hSame⟩ := hFirst.mpr ⟨hMarker, hFaithful⟩
      obtain ⟨hOthers, hSameOthers⟩ := hRest.mpr ⟨hMarkers, hAll⟩
      exact ⟨⟨hLoads, hOthers⟩, hSame, hSameOthers⟩

/-- Properties come back equal whether they carry one or not. -/
theorem sameProperties_reread : ∀ (properties others : List (String × Schema)),
    EverywhereInProperties KeysDistinct properties →
    EverywhereInProperties DefaultDistinct properties →
    (∀ {entry}, entry ∈ properties →
      others.lookup entry.1 = some (entry.2.reread entry.2.optional)) →
      (EverywhereInProperties Loads properties ∧ sameProperties properties others = true ↔
        EverywhereInProperties Faithful properties)
  | [], _, _, _, _ => ⟨fun _ => trivial, fun _ => ⟨trivial, rfl⟩⟩
  | (key, property) :: rest, others, hKeys, hDefaults, hFound => by
    -- a property comes back under its own marker, whatever that is
    have hFirst := same_reread property.optional property hKeys.1 hDefaults.1
    have hRest := sameProperties_reread rest others hKeys.2 hDefaults.2
      fun hEntry => hFound (List.mem_cons_of_mem _ hEntry)
    rw [EverywhereInProperties, EverywhereInProperties, sameProperties,
      hFound (List.mem_cons_self ..), Bool.and_eq_true]
    constructor
    · rintro ⟨⟨hLoads, hOthers⟩, hSame, hSameOthers⟩
      exact ⟨(hFirst.mp ⟨hLoads, hSame⟩).2, hRest.mp ⟨hOthers, hSameOthers⟩⟩
    · rintro ⟨hFaithful, hAll⟩
      obtain ⟨hLoads, hSame⟩ := hFirst.mpr ⟨rfl, hFaithful⟩
      obtain ⟨hOthers, hSameOthers⟩ := hRest.mpr hAll
      exact ⟨⟨hLoads, hOthers⟩, hSame, hSameOthers⟩

end

/-- The document of a schema is loaded as an equal schema exactly when the
schema is not marked as optional and every node is as it must be. -/
theorem loads_same_iff (s : Schema) (hKeys : s.Everywhere KeysDistinct)
    (hDefaults : s.Everywhere DefaultDistinct) :
    (∃ t, ofDocumentJson s.document = .ok t ∧ s.same t = true) ↔
      s.optional = false ∧ s.Everywhere Faithful := by
  have hLoaded := ofDocumentJson_document hKeys hDefaults
  rw [← same_reread false s hKeys hDefaults]
  constructor
  · rintro ⟨t, hOk, hSame⟩
    obtain ⟨hLoads, rfl⟩ := (hLoaded t).mp hOk
    exact ⟨hLoads, hSame⟩
  · rintro ⟨hLoads, hSame⟩
    exact ⟨s.reread false, (hLoaded _).mpr ⟨hLoads, rfl⟩, hSame⟩

/-- A schema with a default, an optional property and an unknown type. -/
def nicknamed : Schema :=
  .object [("nick", .scalar (.string none) ⟨some (.string "x"), true⟩),
    ("tags", .array (.scalar (.other "Symbol") {}) {})] ["tags"] false {}

/-- It is brought back by its document. -/
theorem loads_same_iff_nicknamed :
    nicknamed.Everywhere KeysDistinct ∧ nicknamed.Everywhere DefaultDistinct ∧
      ∃ t, ofDocumentJson nicknamed.document = .ok t ∧ nicknamed.same t = true := by
  have hKeys : nicknamed.Everywhere KeysDistinct :=
    ⟨(by decide : ["nick", "tags"].Nodup), trivial, ⟨trivial, trivial⟩, trivial⟩
  have hNone {s : Schema} (h : s.default = none) : s.DefaultDistinct := by
    rw [DefaultDistinct, h]
    exact fun _ hNone => nomatch hNone
  have hDefaults : nicknamed.Everywhere DefaultDistinct := by
    refine ⟨hNone rfl, fun default hDefault => ?_, ⟨hNone rfl, hNone rfl⟩, trivial⟩
    cases hDefault
    trivial
  -- the kind is unknown, so it comes back under its name
  have hFaithful : nicknamed.Everywhere Faithful := by
    refine ⟨⟨nofun, rfl⟩, ⟨nofun, trivial⟩, ⟨⟨nofun, rfl⟩, nofun, ?_⟩, trivial⟩
    exact (by decide : "Symbol" ∉ Scalar.known)
  exact ⟨hKeys, hDefaults, (loads_same_iff nicknamed hKeys hDefaults).mpr ⟨rfl, hFaithful⟩⟩

end Schema

end JsonStencil
