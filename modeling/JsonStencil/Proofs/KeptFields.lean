import Mathlib.Data.List.Forall2
import JsonStencil.Proofs.LoadedSchemas
import JsonStencil.Proofs.Merging
import JsonStencil.Proofs.Pruned
import JsonStencil.Proofs.Simulation

/-!
# Fields that are kept

The object that an encoder writes is known member by member: where the
generic text serves it has every entry of the value that is not undefined,
and elsewhere the fields of the properties that the node ends up with. A
field that the value holds is lost if the node knows its properties and has
none under that key.

Which keys a node knows goes back to the document. A declaration counts
unless a keyword beside it comes first: own properties stand behind `anyOf`
and `allOf`, and so do the properties of every member of an `allOf`. All that
counts is written. What another keyword overrules need not be, even though
the text would have room for it.

Main definitions:

* `Schema.members` — the members that are written for an object.
* `Schema.Keeps` — a node from which a field under a key is written.
* `Document.Declares` — the declarations of a key in a document.
* `Document.Keeps` — a key with a declaration that counts.

Main results:

* `direct_object` — the text of an object is made of those members.
* `encode_keeps` — which declared fields are written.
* `encode_loses_beside` — a declared field that is lost.
-/

namespace JsonStencil

/-! ## Members of a text -/

/-- The members in the generic text of an object. -/
def Value.members : Value → List (String × String)
  | .object entries =>
    (entries.filter fun entry => !entry.2.isUndefined).map fun entry => (entry.1, entry.2.text)
  | _ => []

namespace Schema

variable {escaping : Json.Escaping}

/-- A member as it is written. -/
def memberText (member : String × String) : String := label member.1 ++ member.2

/-- What is written under the key of a property, if anything is. -/
def fieldValue (escaping : Json.Escaping) (key : String) (property : Schema) (v : Value) :
    Option String :=
  if property.isUndefined then none
  else if property.optional && (v.get key).isUndefined then property.default.map Json.text
  else some (property.direct escaping (v.get key))

/-- The members that are written for properties. -/
def fields (escaping : Json.Escaping) (properties : List (String × Schema)) (v : Value) :
    List (String × String) :=
  properties.filterMap fun entry => (fieldValue escaping entry.1 entry.2 v).map (entry.1, ·)

/-- The members that are written for an object. -/
def members (escaping : Json.Escaping) (s : Schema) (v : Value) : List (String × String) :=
  match s.node with
  | .object properties _ => fields escaping properties v
  | _ => v.members

/-- A node that writes the field under a key: it has a property of that key
whose value can be there at all, or it does not go by properties. -/
def Keeps (key : String) (s : Schema) : Prop :=
  match s.node with
  | .object properties _ => ∃ property, (key, property) ∈ properties ∧ property.isUndefined = false
  | _ => True

/-- The fields of an object are the texts of its members. -/
theorem directFields_eq_fields (properties : List (String × Schema)) (v : Value) :
    directFields escaping properties v = (fields escaping properties v).map memberText := by
  induction properties with
  | nil => rw [directFields]; rfl
  | cons entry rest ih =>
    obtain ⟨key, property⟩ := entry
    -- both leave out what is never defined, and what is missing without a default
    have hField : directField escaping key property v =
        ((fieldValue escaping key property v).map fun text => label key ++ text).toList := by
      unfold directField fieldValue
      split
      · rfl
      · split
        · cases property.default <;> rfl
        · rfl
    rw [directFields_cons, ih, hField, fields, fields, List.filterMap_cons]
    cases fieldValue escaping key property v <;> rfl

/-- So are the entries in the generic text. -/
theorem entryTexts_eq_members (entries : List (String × Value)) :
    Value.entryTexts entries = (Value.object entries).members.map memberText := by
  induction entries with
  | nil => rfl
  | cons entry rest ih =>
    obtain ⟨key, value⟩ := entry
    rw [Value.entryTexts, ih]
    cases hUndefined : value.isUndefined <;>
      simp [Value.members, hUndefined, memberText, label, Json.literal_json]

/-- The text of an object is made of the members that the node writes. -/
theorem direct_object {s : Schema} (h : s.isUndefined = false) (entries : List (String × Value)) :
    s.direct escaping (.object entries) =
      braced ((s.members escaping (.object entries)).map memberText) := by
  -- neither null nor undefined, an object is not caught by any guard
  have hGuard (guard : Option Guard) (text : String) :
      guardedText guard (.object entries) text = text := by
    cases guard with
    | none => rfl
    | some guard => simp [guardedText, Guard.hits, Value.isNull, Value.isUndefined]
  have hText : (Value.object entries).text =
      braced ((Value.object entries).members.map memberText) := by
    rw [Value.text, entryTexts_eq_members]
  have hSilent : s.node ≠ .silent := fun hNode =>
    absurd ((node_eq_silent_iff s).mp hNode) (by simp [h])
  rw [direct_eq, members]
  cases hNode : s.node with
  | silent => exact absurd hNode hSilent
  | generic => exact hText
  | scalar writer guard =>
    rw [Node.direct, hGuard, ← hText]
    cases writer <;> rfl
  | date guard => rw [Node.direct, hGuard, ← hText]; rfl
  | object properties guard => rw [Node.direct, hGuard, directFields_eq_fields]
  | joined writer guard => rw [Node.direct, hGuard, ← hText]; rfl
  | loop items guard => rw [Node.direct, hGuard, ← hText]; rfl

/-- An entry that is not undefined is in the generic text. -/
theorem mem_keys_valueMembers {v : Value} {key : String} (h : (v.get key).isUndefined = false) :
    key ∈ Fields.keys v.members := by
  rcases v.get_cases key with hNone | ⟨entries, rfl, hEntry⟩
  · rw [hNone] at h
    exact absurd h (by simp [Value.isUndefined])
  · exact List.mem_map_of_mem (List.mem_map_of_mem (List.mem_filter.mpr ⟨hEntry, by simpa using h⟩))

/-- Of what the value holds, the fields that the node keeps are written, and
no others. -/
theorem mem_keys_members (s : Schema) {v : Value} {key : String}
    (h : (v.get key).isUndefined = false) :
    key ∈ Fields.keys (s.members escaping v) ↔ s.Keeps key := by
  unfold members Keeps
  -- a node that goes by properties, and any other
  split
  · next properties _ _ =>
    have hField (property : Schema) :
        (∃ text, fieldValue escaping key property v = some text) ↔
          property.isUndefined = false := by
      unfold fieldValue
      cases property.isUndefined <;> simp [h]
    simp only [Fields.keys, fields, List.mem_map, List.mem_filterMap, Option.map_eq_some_iff]
    constructor
    · rintro ⟨_, ⟨⟨name, property⟩, hEntry, text, hText, rfl⟩, rfl⟩
      exact ⟨property, hEntry, (hField property).mp ⟨text, hText⟩⟩
    · rintro ⟨property, hEntry, hDefined⟩
      obtain ⟨text, hText⟩ := (hField property).mpr hDefined
      exact ⟨(key, text), ⟨(key, property), hEntry, text, hText, rfl⟩, rfl⟩
  · exact iff_of_true (mem_keys_valueMembers h) trivial

/-! ## Declarations of a node -/

/-- The declarations of a key in the own properties of a node and in those of
the members that it is composed of. -/
inductive Declares (key : String) : Schema → Schema → Prop where
  | own {properties : List (String × Schema)} {required : List String} {additional : Bool}
    {marks : Marks} {property : Schema} (h : (key, property) ∈ properties) :
    Declares key (.object properties required additional marks) property
  | member {members : List Schema} {marks : Marks} {member property : Schema}
    (hMember : member ∈ members) (h : Declares key member property) :
    Declares key (.intersection members marks) property

/-- Merging does not change whether a value can be there. -/
theorem isUndefined_merge (s : Schema) : s.merge.isUndefined = s.isUndefined := by
  cases s with
  | intersection members marks =>
    rw [merge]
    split <;> rfl
  | _ => simp [merge]

mutual

/-- Whatever properties a member is taken in with go back to its
declarations. -/
theorem declares_of_mem_mergeMember {key : String} {property : Schema} :
    ∀ s : Schema, (key, property) ∈ (mergeMember s).properties →
      ∃ declared, s.Declares key declared ∧ property.isUndefined = declared.isUndefined
  | .object properties _ _ _, h => by
    rw [mergeMember, Schema.properties] at h
    obtain ⟨declared, hDeclared, rfl⟩ := mem_mergeProperties h
    exact ⟨declared, .own hDeclared, isUndefined_merge declared⟩
  | .intersection members marks, h => by
    rw [mergeMember] at h
    -- an intersection without an object has no properties
    split at h
    · rcases declares_of_mem_mergeMembers members {} h with hMember | hNone
      · obtain ⟨member, hMember, declared, hDeclared, hSame⟩ := hMember
        exact ⟨declared, .member hMember hDeclared, hSame⟩
      · exact absurd hNone List.not_mem_nil
    · exact absurd h List.not_mem_nil
  | .scalar _ _, h | .array _ _, h | .union _ _, h => by
    rw [mergeMember] at h
    · exact absurd h List.not_mem_nil
    all_goals exact nofun

/-- They go back to one of the members, or were gathered before. -/
theorem declares_of_mem_mergeMembers {key : String} {property : Schema} :
    ∀ (members : List Schema) (g : Gathered),
      (key, property) ∈ (mergeMembers members g).properties →
      (∃ member ∈ members, ∃ declared, member.Declares key declared ∧
        property.isUndefined = declared.isUndefined) ∨ (key, property) ∈ g.properties
  | [], _, h => by
    rw [mergeMembers] at h
    exact Or.inr h
  | member :: rest, g, h => by
    rw [mergeMembers] at h
    -- from a later member, from this one, or from before
    rcases declares_of_mem_mergeMembers rest _ h with hRest | hHere
    · obtain ⟨found, hFound, hDeclared⟩ := hRest
      exact Or.inl ⟨found, List.mem_cons_of_mem _ hFound, hDeclared⟩
    · rw [properties_absorb] at hHere
      rcases Fields.mem_putAll hHere with hMember | hBefore
      · exact Or.inl ⟨member, List.mem_cons_self ..,
          declares_of_mem_mergeMember member hMember⟩
      · exact Or.inr hBefore

end

/-- The members that are taken in bring their keys, and no key is lost. -/
theorem mem_keys_mergeMembers {key : String} {members : List Schema} {g : Gathered}
    (h : key ∈ Fields.keys g.properties ∨
      ∃ member ∈ members, key ∈ Fields.keys (mergeMember member).properties) :
    key ∈ Fields.keys (mergeMembers members g).properties := by
  induction members generalizing g with
  | nil =>
    rw [mergeMembers]
    exact h.resolve_right fun ⟨_, hMember, _⟩ => absurd hMember List.not_mem_nil
  | cons member rest ih =>
    rw [mergeMembers]
    apply ih
    rw [properties_absorb, Fields.mem_keys_putAll]
    -- gathered before, brought by this member, or by a later one
    rcases h with hBefore | ⟨found, hFound, hKey⟩
    · exact Or.inl (Or.inl hBefore)
    · rcases List.mem_cons.mp hFound with rfl | hRest
      · exact Or.inl (Or.inr hKey)
      · exact Or.inr ⟨found, hRest, hKey⟩

/-- A node is merged like a member, but for the properties of an object,
which stay as they are under their keys. -/
theorem keys_properties_merge (s : Schema) :
    Fields.keys s.merge.properties = Fields.keys (mergeMember s).properties := by
  cases s with
  | object properties required additional marks =>
    rw [merge_of_not_isMergeable rfl, mergeMember]
    exact (keys_mergeProperties properties).symm
  | intersection members marks => rw [merge, mergeMember]
  | _ => simp [merge, mergeMember]

/-- The properties of a merged node go back to its declarations. -/
theorem declares_of_mem_merge {key : String} {property : Schema} (s : Schema)
    (h : (key, property) ∈ s.merge.properties) :
    ∃ declared, s.Declares key declared ∧ property.isUndefined = declared.isUndefined := by
  cases s with
  | object properties required additional marks =>
    rw [merge_of_not_isMergeable rfl] at h
    exact ⟨property, .own h, rfl⟩
  | _ =>
    refine declares_of_mem_mergeMember _ ?_
    simpa [merge, mergeMember] using h

/-- A key that reaches the properties of a node is kept if none of its
declarations is of what is never there. -/
theorem keeps_of_mem {key : String} {s : Schema}
    (hKey : key ∈ Fields.keys (mergeMember s).properties)
    (hDefined : ∀ declared, s.Declares key declared → declared.isUndefined = false) :
    s.Keeps key := by
  have hPeel : s.peel.schema = s := by
    cases s with
    | union members marks => simp [mergeMember, Schema.properties, Fields.keys] at hKey
    | _ => rfl
  -- a node that does not go by properties writes the whole value
  unfold Keeps
  split
  · next properties guard hNode =>
    have hShaped := hNode ▸ shaped_node s
    cases hShaped with
    | object hMerge =>
      rw [hPeel] at hMerge
      rw [← keys_properties_merge, hMerge] at hKey
      obtain ⟨⟨_, property⟩, hEntry, rfl⟩ := List.mem_map.mp hKey
      obtain ⟨declared, hDeclared, hSame⟩ := declares_of_mem_merge s (hMerge ▸ hEntry)
      exact ⟨property, hEntry, hSame.trans (hDefined declared hDeclared)⟩
  · trivial

end Schema

/-! ## Declarations of a document -/

namespace Document

/-- Whether a document is one of values that are undefined. -/
def isUndefinedTyped (d : Document) : Prop := d.type = some (.one "undefined")

/-- The declarations of a key in the own properties of a document and in those
of the members of its `allOf`, on any level. -/
inductive Declares (key : String) : Document → Document → Prop where
  | own {d property : Document} {pairs : List (String × Document)}
    (hPairs : d.properties = some pairs) (h : (key, property) ∈ pairs) : Declares key d property
  | member {d member property : Document} {members : List Document}
    (hMembers : d.allOf = some members) (hMember : member ∈ members)
    (h : Declares key member property) : Declares key d property

/-- A document of an object: by its type, or for want of any. -/
def isObjectTyped (d : Document) : Prop := d.type = none ∨ d.type = some (.one "object")

/-- The document declares the key, and no keyword beside the declaration comes
before it. -/
inductive Keeps (key : String) : Document → Prop where
  | own {d property : Document} {pairs : List (String × Document)} (hAnyOf : d.anyOf = none)
    (hAllOf : d.allOf = none) (hType : d.isObjectTyped) (hPairs : d.properties = some pairs)
    (h : (key, property) ∈ pairs) : Keeps key d
  | member {d member : Document} {members : List Document} (hAnyOf : d.anyOf = none)
    (hAllOf : d.allOf = some members) (hMember : member ∈ members) (h : Keeps key member) :
    Keeps key d

end Document

/-! ## Loading declarations -/

section Paired

variable {α β : Type} {R : α → β → Prop} {xs : List α} {ys : List β}

/-- Of two lists related place by place, whatever is in the first has a partner
in the second. -/
theorem forall₂_exists_right (h : List.Forall₂ R xs ys) : ∀ x ∈ xs, ∃ y ∈ ys, R x y := by
  induction h with
  | nil => exact nofun
  | cons hFirst _ ih =>
    refine List.forall_mem_cons.mpr ⟨⟨_, List.mem_cons_self .., hFirst⟩, fun x hx => ?_⟩
    obtain ⟨y, hy, hRelated⟩ := ih x hx
    exact ⟨y, List.mem_cons_of_mem _ hy, hRelated⟩

theorem forall₂_exists_left (h : List.Forall₂ R xs ys) : ∀ y ∈ ys, ∃ x ∈ xs, R x y :=
  forall₂_exists_right h.flip

end Paired

namespace Schema

/-- Some loading of the document gives the schema. -/
def LoadedFrom (s : Schema) (d : Document) : Prop := ∃ path, ofDocumentAt path d = .ok s

/-- The members of a composition are loaded from its documents one by one. -/
theorem membersAt_forall₂ {documents : List Document} {path : List String} {position : Nat}
    {members : List Schema} (h : membersAt path position documents = .ok members) :
    List.Forall₂ LoadedFrom members documents := by
  induction documents generalizing position members with
  | nil =>
    cases h
    exact .nil
  | cons document rest ih =>
    rw [membersAt] at h
    obtain ⟨first, hFirst, hMore⟩ := bind_inv h
    obtain ⟨others, hOthers, hEnd⟩ := bind_inv hMore
    cases hEnd
    exact .cons ⟨_, hFirst⟩ (ih hOthers)

/-- A composition is its first member and the others. -/
theorem compositionAt_forall₂ {keyword : Composition} {documents : List Document}
    {path : List String} {members : List Schema}
    (h : compositionAt keyword path documents = .ok members) :
    List.Forall₂ LoadedFrom members documents := by
  cases documents with
  | nil => exact nomatch h
  | cons document rest =>
    rw [compositionAt] at h
    obtain ⟨first, hFirst, hMore⟩ := bind_inv h
    obtain ⟨others, hOthers, hEnd⟩ := bind_inv hMore
    cases hEnd
    exact .cons ⟨_, hFirst⟩ (membersAt_forall₂ hOthers)

/-- Marks do not change whether a value can be there. -/
theorem isUndefined_withMarks (marks : Marks) (s : Schema) :
    (s.withMarks marks).isUndefined = s.isUndefined := by
  cases s with
  | scalar kind _ => cases kind <;> rfl
  | _ => rfl

/-- A property as it is loaded from a pair: the same key, and the schema of
the document but for the marker. -/
def PropertyFrom (entry : String × Schema) (pair : String × Document) : Prop :=
  entry.1 = pair.1 ∧ ∃ s, LoadedFrom s pair.2 ∧ entry.2.isUndefined = s.isUndefined

/-- Properties are loaded pair by pair. -/
theorem propertiesAt_forall₂ {pairs : List (String × Document)} {required path : List String}
    {properties : List (String × Schema)} (h : propertiesAt required path pairs = .ok properties) :
    List.Forall₂ PropertyFrom properties pairs := by
  induction pairs generalizing properties with
  | nil =>
    cases h
    exact .nil
  | cons pair rest ih =>
    obtain ⟨key, document⟩ := pair
    rw [propertiesAt] at h
    obtain ⟨schema, hSchema, hMore⟩ := bind_inv h
    obtain ⟨others, hOthers, hEnd⟩ := bind_inv hMore
    cases hEnd
    exact .cons ⟨rfl, schema, ⟨_, hSchema⟩, isUndefined_withMarks _ schema⟩ (ih hOthers)

/-- What a document is loaded as, as far as its declarations go. -/
inductive LoadedAs (d : Document) : Schema → Prop where
  | union {members : List Schema} {marks : Marks}
    (hOther : d.anyOf = none → d.allOf = none ∧ ¬ d.isObjectTyped) :
    LoadedAs d (.union members marks)
  | intersection {documents : List Document} {members : List Schema} {marks : Marks}
    (hAnyOf : d.anyOf = none) (hAllOf : d.allOf = some documents)
    (hMembers : List.Forall₂ LoadedFrom members documents) :
    LoadedAs d (.intersection members marks)
  | object {properties : List (String × Schema)} {required : List String} {additional : Bool}
    {marks : Marks} (hAnyOf : d.anyOf = none) (hAllOf : d.allOf = none) (hType : d.isObjectTyped)
    (hProperties : List.Forall₂ PropertyFrom properties (d.properties.getD [])) :
    LoadedAs d (.object properties required additional marks)
  | array {items : Schema} {marks : Marks} (hType : ¬ d.isObjectTyped) (hAllOf : d.allOf = none) :
    LoadedAs d (.array items marks)
  | scalar {kind : Scalar} {marks : Marks} (hAllOf : d.allOf = none)
    (hNone : d.isObjectTyped → d.properties = none)
    (hUndefined : kind = .undefined → d.isUndefinedTyped) : LoadedAs d (.scalar kind marks)

/-- Only one type name stands for what is never there. -/
theorem eq_of_scalarOf {name : String} {format : Option String}
    (h : scalarOf name format = .undefined) : name = "undefined" := by
  rw [scalarOf] at h
  iterate 5
    split at h
    · cases h
  split at h
  · assumption
  · split at h <;> cases h

/-- What a document is loaded as under a type name. -/
theorem namedAt_loadedAs {path : List String} {d : Document} {name : String} {marks : Marks}
    {s : Schema} (hAnyOf : d.anyOf = none) (hAllOf : d.allOf = none)
    (hName : d.type = some (.one name) ∨ d.type = none ∧ name = "object")
    (h : namedAt path d name marks = .ok s) : LoadedAs d s := by
  unfold namedAt at h
  -- an object, an array and a scalar in turn
  split at h
  · next hObject =>
    have hType : d.isObjectTyped := by
      rcases hName with hOne | ⟨hNone, -⟩
      · exact Or.inr (hObject ▸ hOne)
      · exact Or.inl hNone
    dsimp only at h
    split at h
    · next pairs hPairs =>
      obtain ⟨properties, hProperties, hEnd⟩ := bind_inv h
      cases hEnd
      refine .object hAnyOf hAllOf hType ?_
      rw [hPairs]
      exact propertiesAt_forall₂ hProperties
    · next hNone =>
      cases h
      refine .object hAnyOf hAllOf hType ?_
      rw [hNone]
      exact .nil
  · next hObject =>
    -- a name other than that of an object is the type itself
    have hType : d.type = some (.one name) := hName.resolve_right fun hNone => hObject hNone.2
    have hOther : ¬ d.isObjectTyped := by
      rintro (hNone | hOne)
      · simp [hType] at hNone
      · simp [hType, hObject] at hOne
    have hNone : d.isObjectTyped → d.properties = none := fun hTyped => absurd hTyped hOther
    split at h
    · split at h
      · obtain ⟨items, -, hEnd⟩ := bind_inv h
        cases hEnd
        exact .array hOther hAllOf
      · exact nomatch h
      · cases h
        exact .scalar hAllOf hNone nofun
    · cases h
      refine .scalar hAllOf hNone fun hUndefined => ?_
      rw [eq_of_scalarOf hUndefined] at hType
      exact hType

/-- A document that loads is loaded as one of these. -/
theorem ofDocumentAt_loadedAs {path : List String} {d : Document} {s : Schema}
    (h : ofDocumentAt path d = .ok s) : LoadedAs d s := by
  rw [ofDocumentAt_eq] at h
  -- in the order in which the loader looks at keywords
  split at h
  · next hAnyOf =>
    obtain ⟨members, -, hEnd⟩ := bind_inv h
    cases hEnd
    exact .union fun hNone => by simp [hAnyOf] at hNone
  · next hAnyOf hAllOf =>
    obtain ⟨members, hMembers, hEnd⟩ := bind_inv h
    cases hEnd
    exact .intersection hAnyOf hAllOf (compositionAt_forall₂ hMembers)
  · next hAnyOf hAllOf hType => exact namedAt_loadedAs hAnyOf hAllOf (Or.inl hType) h
  · next hAllOf hType =>
    obtain ⟨members, -, hEnd⟩ := bind_inv h
    cases hEnd
    refine .union fun _ => ⟨hAllOf, ?_⟩
    -- a list of names is no single name
    rintro (hNone | hOne)
    · simp [hType] at hNone
    · simp [hType] at hOne
  · next hAnyOf hAllOf hType =>
    split at h
    · exact namedAt_loadedAs hAnyOf hAllOf (Or.inr ⟨hType, rfl⟩) h
    · next hShape =>
      cases h
      simp only [Bool.or_eq_true, not_or, Bool.not_eq_true, Option.isSome_eq_false_iff,
        Option.isNone_iff_eq_none] at hShape
      exact .scalar hAllOf (fun _ => hShape.1) nofun

/-- A schema of what is never there comes from a document that says so. -/
theorem LoadedFrom.isUndefined {d : Document} {s : Schema} (h : LoadedFrom s d)
    (hUndefined : s.isUndefined = true) : d.isUndefinedTyped := by
  obtain ⟨path, hLoad⟩ := h
  cases ofDocumentAt_loadedAs hLoad with
  | @scalar kind _ _ _ hTyped =>
    cases kind with
    | undefined => exact hTyped rfl
    | _ => exact nomatch hUndefined
  | _ => exact nomatch hUndefined

/-- A declaration of the loaded node is a declaration of the document that
counts. -/
theorem Declares.ofLoaded {key : String} {s property : Schema} (h : s.Declares key property) :
    ∀ {d : Document}, LoadedFrom s d → d.Keeps key ∧
      ∃ declared, d.Declares key declared ∧
        (property.isUndefined = true → declared.isUndefinedTyped) := by
  -- along the declaration: each node on the way says which kind of document it comes from
  induction h with
  | own hProperty =>
    rintro d ⟨path, hLoad⟩
    cases ofDocumentAt_loadedAs hLoad with
    | object hAnyOf hAllOf hType hProperties =>
      obtain ⟨⟨_, declared⟩, hPair, rfl, loaded, hLoaded, hSame⟩ :=
        forall₂_exists_right hProperties _ hProperty
      cases hPairs : d.properties with
      | none => simp [hPairs] at hPair
      | some pairs =>
        have hPair : (key, declared) ∈ pairs := by simpa [hPairs] using hPair
        exact ⟨.own hAnyOf hAllOf hType hPairs hPair, declared, .own hPairs hPair,
          fun hUndefined => hLoaded.isUndefined (hSame ▸ hUndefined)⟩
  | member hMember _ ih =>
    rintro d ⟨path, hLoad⟩
    cases ofDocumentAt_loadedAs hLoad with
    | intersection hAnyOf hAllOf hMembers =>
      obtain ⟨document, hDocument, hLoaded⟩ := forall₂_exists_right hMembers _ hMember
      obtain ⟨hKeeps, declared, hDeclared, hUndefined⟩ := ih hLoaded
      exact ⟨.member hAnyOf hAllOf hDocument hKeeps, declared,
        .member hAllOf hDocument hDeclared, hUndefined⟩

/-- A member with a property makes a composition an object. -/
theorem isObjectTyped_of_mem {key : String} {s : Schema}
    (h : key ∈ Fields.keys (mergeMember s).properties) : s.isObjectTyped = true := by
  cases s with
  | object => rw [isObjectTyped]
  | intersection members marks =>
    rw [mergeMember] at h
    rw [isObjectTyped]
    split at h
    · assumption
    · exact absurd h List.not_mem_nil
  | _ => simp [mergeMember, Schema.properties, Fields.keys] at h

/-- What counts in the document reaches the properties of the loaded node. -/
theorem mem_keys_of_keeps {key : String} {d : Document} (h : d.Keeps key) :
    ∀ {s : Schema}, LoadedFrom s d → key ∈ Fields.keys (mergeMember s).properties := by
  induction h with
  | @own d property pairs hAnyOf hAllOf hType hPairs hPair =>
    rintro s ⟨path, hLoad⟩
    -- with this type and these keywords the document loads as an object only
    cases ofDocumentAt_loadedAs hLoad with
    | union hOther => exact absurd hType (hOther hAnyOf).2
    | intersection _ hSome => simp [hAllOf] at hSome
    | object _ _ _ hProperties =>
      rw [hPairs] at hProperties
      obtain ⟨entry, hEntry, hKey, -⟩ := forall₂_exists_left hProperties _ hPair
      rw [mergeMember, Schema.properties, keys_mergeProperties]
      exact List.mem_map.mpr ⟨entry, hEntry, hKey⟩
    | array hOther => exact absurd hType hOther
    | scalar _ hNone => simp [hNone hType] at hPairs
  | @member d document documents hAnyOf hAllOf hDocument _ ih =>
    rintro s ⟨path, hLoad⟩
    cases ofDocumentAt_loadedAs hLoad with
    | @intersection found members marks _ hSome hMembers =>
      obtain rfl : documents = found := Option.some.inj (hAllOf.symm.trans hSome)
      obtain ⟨member, hMember, hLoaded⟩ := forall₂_exists_left hMembers _ hDocument
      have hKey := ih hLoaded
      -- one member with a property makes the whole composition an object
      have hAny : anyObjectTyped members = true := by
        rw [anyObjectTyped_eq_any, List.any_eq_true]
        exact ⟨member, hMember, isObjectTyped_of_mem hKey⟩
      rw [mergeMember, if_pos hAny]
      exact mem_keys_mergeMembers (Or.inr ⟨member, hMember, hKey⟩)
    | union hOther => simp [(hOther hAnyOf).1] at hAllOf
    | object _ hNone => simp [hAllOf] at hNone
    | array _ hNone => simp [hAllOf] at hNone
    | scalar hNone => simp [hAllOf] at hNone

/-- A key is kept if it counts in the document and no declaration of it is of
what is never there. -/
theorem keeps_of_document {key : String} {d : Document} {s : Schema} (h : LoadedFrom s d)
    (hKeeps : d.Keeps key)
    (hDefined : ∀ declared, d.Declares key declared → ¬ declared.isUndefinedTyped) :
    s.Keeps key := by
  refine keeps_of_mem (mem_keys_of_keeps hKeeps h) fun property hProperty => ?_
  obtain ⟨-, declared, hDeclared, hTyped⟩ := hProperty.ofLoaded h
  exact Bool.eq_false_iff.mpr fun hUndefined => hDefined declared hDeclared (hTyped hUndefined)

/-- Where the node goes by properties, a key that is kept counts in the
document. -/
theorem document_keeps {key : String} {d : Document} {s : Schema} (h : LoadedFrom s d)
    (hAnyOf : d.anyOf = none) (hType : d.isObjectTyped)
    {properties : List (String × Schema)} {guard : Option Guard}
    (hNode : s.node = .object properties guard) (hKeeps : s.Keeps key) : d.Keeps key := by
  -- peeling looks into unions only, and such a document is loaded as none
  have hPeel : s.peel.schema = s := by
    obtain ⟨path, hLoad⟩ := h
    cases ofDocumentAt_loadedAs hLoad with
    | union hOther => exact absurd hType (hOther hAnyOf).2
    | _ => rfl
  rw [Keeps, hNode] at hKeeps
  obtain ⟨property, hProperty, -⟩ := hKeeps
  have hShaped := hNode ▸ shaped_node s
  cases hShaped with
  | object hMerge =>
    rw [hPeel] at hMerge
    have hMerged : (key, property) ∈ s.merge.properties := by
      rw [hMerge]
      exact hProperty
    obtain ⟨declared, hDeclared, -⟩ := declares_of_mem_merge s hMerged
    exact (hDeclared.ofLoaded h).1

/-- A schema is loaded from the typed form of its document. -/
theorem loadedFrom_of_ofDocumentJson {value : Json} {d : Document} {s : Schema}
    (hTyped : Document.ofJson value = .ok d) (hLoad : ofDocumentJson value = .ok s) :
    LoadedFrom s d := by
  rw [ofDocumentJson, hTyped] at hLoad
  exact ⟨[], hLoad⟩

/-- **What is declared is written unless another keyword comes first.** The
encoder of a document of type object, or of none, writes an object for every
object. Of the fields that the value holds it writes those that the loaded
node keeps. A key that counts in the document and is nowhere declared as
undefined is kept; a key that does not count is lost as soon as the node goes
by properties, unless an `anyOf` decides. -/
theorem encode_keeps {value : Json} {d : Document} {s : Schema}
    (hTyped : Document.ofJson value = .ok d) (hLoad : ofDocumentJson value = .ok s)
    (hType : d.isObjectTyped) (escaping : Json.Escaping) (entries : List (String × Value)) :
    (Encoder.ofSchema s escaping).encode (.object entries) =
        .ok (braced ((s.members escaping (.object entries)).map memberText)) ∧
      ∀ key, ((Value.object entries).get key).isUndefined = false →
        (key ∈ Fields.keys (s.members escaping (.object entries)) ↔ s.Keeps key) ∧
        (d.Keeps key → (∀ declared, d.Declares key declared → ¬ declared.isUndefinedTyped) →
          s.Keeps key) ∧
        (d.anyOf = none → ∀ properties guard, s.node = .object properties guard →
          s.Keeps key → d.Keeps key) := by
  have hLoaded := loadedFrom_of_ofDocumentJson hTyped hLoad
  -- no object is loaded as undefined alone
  have hDefined : s.isUndefined = false := by
    refine Bool.eq_false_iff.mpr fun hUndefined => ?_
    have hUndefinedTyped : d.type = some (.one "undefined") := hLoaded.isUndefined hUndefined
    rcases hType with hNone | hOne
    · simp [hUndefinedTyped] at hNone
    · simp [hUndefinedTyped] at hOne
  refine ⟨?_, fun key hHeld => ⟨mem_keys_members s hHeld, keeps_of_document hLoaded,
    fun hAnyOf _ _ hNode hKeeps => document_keeps hLoaded hAnyOf hType hNode hKeeps⟩⟩
  rw [Encoder.encode_eq_direct, direct_object hDefined]

/-- The members of a document of an object with a number under a key. -/
def numberUnder (key : String) : List (String × Json) :=
  [("type", .string "object"), ("required", .array [.string key]),
    ("properties", .object [(key, .object [("type", .string "number")])])]

/-- The same in typed form. -/
def typedNumberUnder (key : String) : Document :=
  { type := some (.one "object")
    required := some [key]
    properties := some [(key, { type := some (.one "number") })] }

/-- Nothing in it is declared as undefined. -/
theorem declares_typedNumberUnder {name key : String} {declared : Document}
    (h : (typedNumberUnder name).Declares key declared) : ¬ declared.isUndefinedTyped := by
  cases h with
  | own hPairs hPair =>
    cases hPairs
    cases List.mem_singleton.mp hPair
    simp [Document.isUndefinedTyped]
  | member hMembers => cases hMembers

/-- Two objects put together. -/
def together : Json :=
  .object [("allOf", .array [.object (numberUnder "a"), .object (numberUnder "b")])]

/-- An object with a property of its own beside another object. -/
def beside : Json :=
  .object (numberUnder "a" ++ [("allOf", .array [.object (numberUnder "b")])])

/-- A value with a number under both keys. -/
def bothNumbers : List (String × Value) :=
  [("a", .number (.integer 1)), ("b", .number (.integer 2))]

/-- Of two objects put together both fields are written. -/
theorem encode_keeps_together : ∃ d s, Document.ofJson together = .ok d ∧
    ofDocumentJson together = .ok s ∧ d.isObjectTyped ∧ d.Keeps "a" ∧
      "a" ∈ Fields.keys (s.members .json (.object bothNumbers)) := by
  have hTyped : Document.ofJson together =
      .ok { allOf := some [typedNumberUnder "a", typedNumberUnder "b"] } := rfl
  have hKeeps : Document.Keeps "a" { allOf := some [typedNumberUnder "a", typedNumberUnder "b"] } :=
    .member rfl rfl (List.mem_cons_self ..)
      (.own rfl rfl (Or.inr rfl) rfl (List.mem_cons_self ..))
  refine ⟨_, _, hTyped, rfl, Or.inl rfl, hKeeps, ?_⟩
  obtain ⟨-, hKeys⟩ := encode_keeps hTyped rfl (Or.inl rfl) .json bothNumbers
  refine (hKeys "a" rfl).1.mpr ((hKeys "a" rfl).2.1 hKeeps fun declared hDeclared => ?_)
  -- each member declares its key as a number
  cases hDeclared with
  | own hPairs => cases hPairs
  | member hMembers hMember h =>
    cases hMembers
    rcases List.mem_pair.mp hMember with rfl | rfl <;> exact declares_typedNumberUnder h

/-- Beside the other object, the field that the document declares itself is
lost, although the value holds it and it is declared as a number. -/
theorem encode_loses_beside : ∃ d s declared, Document.ofJson beside = .ok d ∧
    ofDocumentJson beside = .ok s ∧ d.isObjectTyped ∧ d.Declares "a" declared ∧
      (∀ declared, d.Declares "a" declared → ¬ declared.isUndefinedTyped) ∧
      ((Value.object bothNumbers).get "a").isUndefined = false ∧
      (Encoder.ofSchema s .json).encode (.object bothNumbers) = .ok "\x7b\"b\":2\x7d" ∧
      "a" ∉ Fields.keys (s.members .json (.object bothNumbers)) := by
  refine ⟨{ typedNumberUnder "a" with allOf := some [typedNumberUnder "b"] }, _, _, rfl, rfl,
    Or.inr rfl, .own rfl (List.mem_cons_self ..), fun declared hDeclared => ?_, rfl, ?_, ?_⟩
  · -- both the document and its member declare numbers
    cases hDeclared with
    | own hPairs hPair => exact declares_typedNumberUnder (.own hPairs hPair)
    | member hMembers hMember h =>
      cases hMembers
      cases List.mem_singleton.mp hMember
      exact declares_typedNumberUnder h
  · exact toOption_inv (by decide +kernel)
  · decide +kernel

end Schema

end JsonStencil
