import JsonStencil.Proofs.LoadedSchemas

/-!
# Loading what was written of a loaded schema

A schema that was loaded differs from what its own document brings back in
the lists of required keys alone. Neither the document nor the plan depends
on these, so both stay the same, however often a schema is written and loaded
again.

There is one exception. A list of type names stands for a union, and no one
looks whether the list is empty, whereas an empty choice of members is an
error. The union without members that comes of an empty list has a document
that is not loaded.

Main definitions:

* `Schema.forgetRequired` — a schema without its lists of required keys.
* `Schema.Populated` — a node that is no empty union.

Main results:

* `Schema.forgetRequired_reread` — what a loaded schema is brought back as.
* `Schema.reloads` — when and how a loaded schema is loaded again.
-/

namespace JsonStencil.Schema

/-! ## Without lists of required keys -/

mutual

/-- The schema without its lists of required keys. -/
def forgetRequired : Schema → Schema
  | .scalar kind marks => .scalar kind marks
  | .object properties _ additional marks =>
    .object (forgetInProperties properties) [] additional marks
  | .array items marks => .array (forgetRequired items) marks
  | .union members marks => .union (forgetInMembers members) marks
  | .intersection members marks => .intersection (forgetInMembers members) marks

/-- Every member without its lists. -/
def forgetInMembers : List Schema → List Schema
  | [] => []
  | member :: rest => forgetRequired member :: forgetInMembers rest

/-- Every property without its lists. -/
def forgetInProperties : List (String × Schema) → List (String × Schema)
  | [] => []
  | (key, property) :: rest => (key, forgetRequired property) :: forgetInProperties rest

end

theorem marks_forgetRequired (s : Schema) : s.forgetRequired.marks = s.marks := by
  cases s <;> rfl

theorem optional_forgetRequired (s : Schema) : s.forgetRequired.optional = s.optional :=
  congrArg Marks.optional s.marks_forgetRequired

/-- A document requires the keys without a marker, whatever the list said. -/
theorem requiredKeys_forgetInProperties (properties : List (String × Schema)) :
    requiredKeys (forgetInProperties properties) = requiredKeys properties := by
  induction properties with
  | nil => rfl
  | cons entry rest ih =>
    obtain ⟨key, property⟩ := entry
    unfold requiredKeys at ih ⊢
    rw [forgetInProperties, List.filter_cons, List.filter_cons, optional_forgetRequired]
    split
    · rw [List.map_cons, List.map_cons, ih]
    · exact ih

mutual

/-- The document does not show the lists of required keys. -/
theorem document_forgetRequired : ∀ s : Schema, s.forgetRequired.document = s.document
  | .scalar _ _ => rfl
  | .object properties _ _ _ => by
    rw [forgetRequired, document, document, propertyDocuments_forget properties,
      requiredKeys_forgetInProperties]
  | .array items _ => by
    rw [forgetRequired, document, document, document_forgetRequired items]
  | .union members _ | .intersection members _ => by
    rw [forgetRequired, document, document, memberDocuments_forget members]

/-- Member by member. -/
theorem memberDocuments_forget : ∀ members : List Schema,
    memberDocuments (forgetInMembers members) = memberDocuments members
  | [] => rfl
  | member :: rest => by
    rw [forgetInMembers, memberDocuments, memberDocuments, document_forgetRequired member,
      memberDocuments_forget rest]

/-- Property by property. -/
theorem propertyDocuments_forget : ∀ properties : List (String × Schema),
    propertyDocuments (forgetInProperties properties) = propertyDocuments properties
  | [] => rfl
  | (_, property) :: rest => by
    rw [forgetInProperties, propertyDocuments, propertyDocuments,
      document_forgetRequired property, propertyDocuments_forget rest]

end

mutual

/-- Without its lists of required keys a schema is compiled as with them. -/
theorem alike_forgetRequired : ∀ s : Schema, s.forgetRequired.Alike s
  | .scalar kind _ => .scalar kind rfl
  | .object properties _ additional _ =>
    .object _ _ additional (alikeProperties_forget properties) rfl
  | .array items _ => .array (alike_forgetRequired items) rfl
  | .union members _ => .union (alikeMembers_forget members) rfl
  | .intersection members _ => .intersection (alikeMembers_forget members) rfl

theorem alikeMembers_forget : ∀ members : List Schema,
    AlikeMembers (forgetInMembers members) members
  | [] => .nil
  | member :: rest => .cons (alike_forgetRequired member) (alikeMembers_forget rest)

/-- Property by property. -/
theorem alikeProperties_forget : ∀ properties : List (String × Schema),
    AlikeProperties (forgetInProperties properties) properties
  | [] => .nil
  | (key, property) :: rest =>
    .cons key (optional_forgetRequired property) (alike_forgetRequired property)
      (alikeProperties_forget rest)

end

/-- Schemas that differ in their lists of required keys alone have the same
document. -/
theorem documentText_of_forgetRequired {s t : Schema} (h : s.forgetRequired = t.forgetRequired) :
    s.documentText = t.documentText := by
  rw [documentText, documentText, ← document_forgetRequired s, h, document_forgetRequired]

/-- Schemas that differ in their lists of required keys alone have the same
plan. -/
theorem ofSchema_of_forgetRequired {s t : Schema} (h : s.forgetRequired = t.forgetRequired) :
    Plan.ofSchema s = Plan.ofSchema t := by
  rw [← (alike_forgetRequired s).ofSchema_eq, h, (alike_forgetRequired t).ofSchema_eq]

/-! ## Loading again -/

/-- A default other than null is kept. -/
theorem kept_of_ne_null {marks : Marks} (h : ∀ value ∈ marks.default, value ≠ .null) :
    marks.kept = marks.default := by
  unfold Marks.kept
  split
  · next hNull => exact absurd rfl (h _ hNull)
  · rfl

/-- The marks of a loaded node come back. -/
theorem Loaded.marks_eq {s : Schema} (h : s.Loaded) :
    (⟨s.marks.kept, s.optional⟩ : Marks) = s.marks := by
  rw [kept_of_ne_null fun value hValue => (h.1 value hValue).2]
  rfl

mutual

/-- A loaded schema comes back up to its lists of required keys. -/
theorem forgetRequired_reread : ∀ s : Schema, s.Everywhere Loaded →
    (s.reread s.optional).forgetRequired = s.forgetRequired
  -- a type name that was loaded is read as the same kind again
  | .scalar kind marks, h => by
    obtain ⟨-, hObject, hKind⟩ := (foreign_iff kind).mp h.2
    have hMarks : (⟨marks.kept, marks.optional⟩ : Marks) = marks := Loaded.marks_eq h
    rw [reread, if_neg hObject, hKind]
    exact congrArg (Schema.scalar kind) hMarks
  | .object properties required additional marks, h => by
    have hMarks : (⟨marks.kept, marks.optional⟩ : Marks) = marks := h.1.marks_eq
    rw [reread, forgetRequired, forgetRequired, forgetInProperties_reread properties h.2]
    exact congrArg (Schema.object _ _ _) hMarks
  | .array items marks, h => by
    have hMarks : (⟨marks.kept, marks.optional⟩ : Marks) = marks := h.1.marks_eq
    have hItems := forgetRequired_reread items h.2
    rw [(h.1.2 : items.optional = false)] at hItems
    rw [reread, forgetRequired, forgetRequired, hItems]
    exact congrArg (Schema.array _) hMarks
  | .union members marks, h => by
    have hMarks : (⟨marks.kept, marks.optional⟩ : Marks) = marks := h.1.marks_eq
    rw [reread, forgetRequired, forgetRequired, forgetInMembers_reread members h.1.2 h.2]
    exact congrArg (Schema.union _) hMarks
  | .intersection members marks, h => by
    have hMarks : (⟨marks.kept, marks.optional⟩ : Marks) = marks := h.1.marks_eq
    rw [reread, forgetRequired, forgetRequired, forgetInMembers_reread members h.1.2.2 h.2]
    exact congrArg (Schema.intersection _) hMarks

/-- Members have no marker, as they were loaded by themselves. -/
theorem forgetInMembers_reread : ∀ members : List Schema,
    (∀ member ∈ members, member.optional = false) → EverywhereInMembers Loaded members →
      forgetInMembers (rereadMembers members) = forgetInMembers members
  | [], _, _ => rfl
  | member :: rest, hMarkers, h => by
    have hFirst := forgetRequired_reread member h.1
    rw [hMarkers member (List.mem_cons_self ..)] at hFirst
    rw [rereadMembers, forgetInMembers, forgetInMembers, hFirst, forgetInMembers_reread rest
      (fun other hOther => hMarkers other (List.mem_cons_of_mem _ hOther)) h.2]

/-- Properties come back with the marker that they had. -/
theorem forgetInProperties_reread : ∀ properties : List (String × Schema),
    EverywhereInProperties Loaded properties →
      forgetInProperties (rereadProperties properties) = forgetInProperties properties
  | [], _ => rfl
  | (key, property) :: rest, h => by
    rw [rereadProperties, forgetInProperties, forgetInProperties,
      forgetRequired_reread property h.1, forgetInProperties_reread rest h.2]

end

/-- The node is no union without members. -/
def Populated : Schema → Prop
  | .union members _ => members ≠ []
  | _ => True

/-- A loaded schema is loaded again if no union in it is empty. -/
theorem everywhere_loads_iff {s : Schema} (h : s.Everywhere Loaded) :
    s.Everywhere Loads ↔ s.Everywhere Populated := by
  constructor
  · intro hLoads
    refine hLoads.mono fun t hNode => ?_
    cases t with
    | union _ _ => exact hNode
    | _ => trivial
  · refine everywhere_combine (fun t hLoaded hNode => ?_) s h
    -- loading rules out whatever else would keep a node from being loaded
    cases t with
    | scalar kind _ => exact ((foreign_iff kind).mp hLoaded.2).1
    | union _ _ => exact hNode
    | intersection _ _ => exact hLoaded.2.1
    | _ => trivial

/-- A schema that was loaded of some JSON value: its document is loaded if no
union in it is empty, and then as a schema that has the same document text and
the same plan and differs in the lists of required keys at most. -/
theorem reloads {value : Json} {s : Schema} (h : ofDocumentJson value = .ok s) :
    ((∃ t, ofDocumentJson s.document = .ok t) ↔ s.Everywhere Populated) ∧
      ∀ t, ofDocumentJson s.document = .ok t →
        t.documentText = s.documentText ∧ Plan.ofSchema t = Plan.ofSchema s ∧
          t.forgetRequired = s.forgetRequired := by
  obtain ⟨hUnmarked, hLoaded⟩ := ofDocumentJson_loaded h
  have hKeys : s.Everywhere KeysDistinct := hLoaded.mono fun t hNode => by
    cases t with
    | object _ _ _ _ => exact hNode.2
    | _ => trivial
  have hDefaults : s.Everywhere DefaultDistinct :=
    hLoaded.mono fun t hNode default hDefault => (hNode.1 default hDefault).1
  have hAgain := ofDocumentJson_document hKeys hDefaults
  constructor
  · rw [← everywhere_loads_iff hLoaded]
    exact ⟨fun ⟨t, ht⟩ => ((hAgain t).mp ht).1, fun hLoads => ⟨_, (hAgain _).mpr ⟨hLoads, rfl⟩⟩⟩
  · intro t ht
    obtain ⟨-, rfl⟩ := (hAgain t).mp ht
    -- the schema has no marker of its own, so it is reread under the one it has
    have hForget := forgetRequired_reread s hLoaded
    rw [hUnmarked] at hForget
    exact ⟨documentText_of_forgetRequired hForget, ofSchema_of_forgetRequired hForget, hForget⟩

/-- A document that implies an object and requires a key that the object does
not have. -/
def impliedObject : Json :=
  .object [("properties", .object [("a", .object [("type", .string "integer")])]),
    ("required", .array [.string "b"])]

/-- The schema of that document, with the list of required keys as given. -/
def requiringUnknown : Schema :=
  .object [("a", .scalar .number { optional := true })] ["b"] false {}

/-- Written and loaded again, the schema requires nothing. -/
theorem reloads_requiringUnknown :
    ofDocumentJson impliedObject = .ok requiringUnknown ∧
      ∃ t, ofDocumentJson requiringUnknown.document = .ok t ∧
        t.documentText = requiringUnknown.documentText ∧
          Plan.ofSchema t = Plan.ofSchema requiringUnknown ∧
            t.forgetRequired = requiringUnknown.forgetRequired := by
  have hLoaded : ofDocumentJson impliedObject = .ok requiringUnknown := rfl
  obtain ⟨hAgain, hSame⟩ := reloads hLoaded
  obtain ⟨t, ht⟩ := hAgain.mpr ⟨trivial, trivial, trivial⟩
  exact ⟨hLoaded, t, ht, hSame t ht⟩

/-- An empty list of type names is loaded as a union without members, whose
document is not loaded. -/
theorem not_reloads_noTypes :
    ofDocumentJson (.object [("type", .array [])]) = .ok (.union [] {}) ∧
      ofDocumentJson (Schema.union [] {}).document = .error (.emptyComposition .anyOf []) :=
  ⟨rfl, rfl⟩

end JsonStencil.Schema
