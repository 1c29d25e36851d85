import JsonStencil.Proofs.Reloading

/-!
# What loading gives

Whatever a document looks like, the schema that is loaded of it is settled in
most ways: no default is null or repeats a key, keys of objects are distinct,
markers stand on properties alone, no unknown type bears a name with a
meaning, and an intersection has members. A union may have none, because a
list of type names may be empty.

The proof goes in two steps. The typed form of a JSON value is settled
wherever the loader looks, and then so is the schema that is made of it.

Main definitions:

* `Document.Settled` — a typed form without repeated keys or null defaults.
* `Schema.Loaded` — what holds of every node that was loaded.

Main results:

* `Document.ofJson_settled` — the typed form of a JSON value is settled.
* `Schema.ofDocumentJson_loaded` — what is loaded of a JSON value.
-/

namespace JsonStencil

/-! ## Typed forms -/

namespace Json

/-- No member repeats a key. -/
theorem mem_keysDistinctInMembers {members : List (String × Json)} :
    KeysDistinctInMembers members ↔ ∀ entry ∈ members, entry.2.KeysDistinct := by
  induction members with
  | nil => simp [KeysDistinctInMembers]
  | cons entry rest ih => simp [KeysDistinctInMembers, ih]

mutual

/-- What has been settled repeats no key. -/
theorem keysDistinct_distinct : ∀ j : Json, j.distinct.KeysDistinct
  | .null | .bool _ | .number _ | .string _ => trivial
  | .array items => by
    rw [distinct, KeysDistinct]
    exact keysDistinct_distinctItems items
  -- later members take the place of earlier ones with their key
  | .object members => by
    rw [distinct, KeysDistinct, distinctMembers_eq_putAll]
    refine ⟨Fields.nodup_keys_putAll _ List.nodup_nil, mem_keysDistinctInMembers.mpr ?_⟩
    intro entry hEntry
    rcases Fields.mem_putAll hEntry with hMember | hNone
    · exact keysDistinct_settled members entry hMember
    · exact absurd hNone List.not_mem_nil

theorem keysDistinct_distinctItems : ∀ items : List Json,
    KeysDistinctInItems (distinctItems items)
  | [] => trivial
  | item :: rest => ⟨keysDistinct_distinct item, keysDistinct_distinctItems rest⟩

/-- Member by member, before they are put under their keys. -/
theorem keysDistinct_settled : ∀ members : List (String × Json),
    ∀ entry ∈ members.map fun entry => (entry.1, entry.2.distinct), entry.2.KeysDistinct
  | [] => fun _ h => absurd h List.not_mem_nil
  | (_, value) :: rest =>
    List.forall_mem_cons.mpr ⟨keysDistinct_distinct value, keysDistinct_settled rest⟩

end

/-- What is not null does not become null. -/
theorem distinct_ne_null {j : Json} (h : j ≠ .null) : j.distinct ≠ .null := by
  cases j with
  | null => exact absurd rfl h
  | array _ | object _ => rw [distinct]; exact nofun
  | _ => exact nofun

end Json

namespace Document

/-- A typed form in which, wherever the loader looks, no default is null or
repeats a key and the keys of properties are distinct. -/
inductive Settled : Document → Prop where
  | mk {d : Document} (default : ∀ value ∈ d.default, value.KeysDistinct ∧ value ≠ .null)
    (keys : ∀ pairs ∈ d.properties, (Fields.keys pairs).Nodup)
    (properties : ∀ pairs ∈ d.properties, ∀ entry ∈ pairs, Settled entry.2)
    (items : ∀ items, d.items = some (.one items) → Settled items)
    (anyOf : ∀ members ∈ d.anyOf, ∀ member ∈ members, Settled member)
    (allOf : ∀ members ∈ d.allOf, ∀ member ∈ members, Settled member) : Settled d

/-- Nothing is wrong with a document without keywords. -/
theorem settled_empty : Settled {} :=
  .mk nofun nofun nofun nofun nofun nofun

namespace Settled

variable {d d' : Document}

/-- Keywords that the loader does not look into are of no account. -/
theorem congr (h : d.Settled) (hDefault : d'.default = d.default)
    (hProperties : d'.properties = d.properties) (hItems : d'.items = d.items)
    (hAnyOf : d'.anyOf = d.anyOf) (hAllOf : d'.allOf = d.allOf) : d'.Settled := by
  cases h with
  | mk default keys properties items anyOf allOf =>
    rw [← hDefault] at default
    rw [← hProperties] at keys properties
    rw [← hItems] at items
    rw [← hAnyOf] at anyOf
    rw [← hAllOf] at allOf
    exact .mk default keys properties items anyOf allOf

/-- A default is settled when it is taken in. -/
theorem withDefault (h : d.Settled) {value : Json} (hValue : value ≠ .null) :
    Settled { d with default := some value.distinct } := by
  cases h with
  | mk _ keys properties items anyOf allOf =>
    refine .mk ?_ keys properties items anyOf allOf
    intro default hDefault
    cases hDefault
    exact ⟨value.keysDistinct_distinct, Json.distinct_ne_null hValue⟩

/-- Properties are put under their keys. -/
theorem withProperties (h : d.Settled) {pairs : List (String × Document)}
    (hPairs : ∀ entry ∈ pairs, entry.2.Settled) :
    Settled { d with properties := some (Fields.ofPairs pairs) } := by
  cases h with
  | mk default _ _ items anyOf allOf =>
    -- of a repeated key the last document is kept
    refine .mk default ?_ ?_ items anyOf allOf
    · intro found hFound
      cases hFound
      exact Fields.nodup_keys_putAll pairs List.nodup_nil
    · intro found hFound entry hEntry
      cases hFound
      rcases Fields.mem_putAll hEntry with hPair | hNone
      · exact hPairs entry hPair
      · exact absurd hNone List.not_mem_nil

/-- The items of an array are one document, or a tuple that is not looked into.
-/
theorem withItems (h : d.Settled) {form : ItemForms Document}
    (hForm : ∀ items, form = .one items → items.Settled) :
    Settled { d with items := some form } := by
  cases h with
  | mk default keys properties _ anyOf allOf =>
    exact .mk default keys properties (fun items hItems => hForm items (Option.some.inj hItems))
      anyOf allOf

/-- The members of a choice. -/
theorem withAnyOf (h : d.Settled) {members : List Document}
    (hMembers : ∀ member ∈ members, member.Settled) :
    Settled { d with anyOf := some members } := by
  cases h with
  | mk default keys properties items _ allOf =>
    refine .mk default keys properties items ?_ allOf
    intro found hFound
    cases hFound
    exact hMembers

/-- The members of a conjunction. -/
theorem withAllOf (h : d.Settled) {members : List Document}
    (hMembers : ∀ member ∈ members, member.Settled) :
    Settled { d with allOf := some members } := by
  cases h with
  | mk default keys properties items anyOf _ =>
    refine .mk default keys properties items anyOf ?_
    intro found hFound
    cases hFound
    exact hMembers

end Settled

/-- The shape that is found is one of those that were tried. -/
theorem mem_of_orElse {α : Type} {keyword : Keyword} {forms : List (Option α)} {form : α}
    (h : orElse keyword forms = .ok form) : some form ∈ forms := by
  unfold orElse at h
  split at h
  · next hFound =>
    obtain ⟨option, hMem, hSome⟩ := List.exists_of_findSome?_eq_some hFound
    cases h
    cases hSome
    exact hMem
  · exact nomatch h

/-- A value that is no array and no object gives only what the loader does
not look into, or a default. -/
theorem withKeyword_leaf_settled {d d' : Document} {keyword : Keyword} {value : Json}
    (hd : d.Settled) (h : withKeyword d keyword value = .ok d')
    (hArray : ∀ items, value ≠ .array items) (hObject : ∀ members, value ≠ .object members) :
    d'.Settled := by
  cases value with
  | null =>
    cases h
    exact hd
  | array items => exact absurd rfl (hArray items)
  | object members => exact absurd rfl (hObject members)
  | _ =>
    -- the keywords with documents inside refuse a leaf
    cases keyword with
    | default =>
      cases h
      exact hd.withDefault nofun
    | type | additionalProperties | format =>
      obtain ⟨_, -, hEnd⟩ := bind_inv h
      cases hEnd
      exact hd.congr rfl rfl rfl rfl rfl
    | items =>
      obtain ⟨_, hForm, -⟩ := bind_inv h
      exact absurd (mem_of_orElse hForm) List.not_mem_nil
    | _ => exact nomatch h

/-- The way to a fault does not matter where there is none. -/
theorem inside_eq_ok {α : Type} {segment : Json.Segment} {check : Except Fault α} {a : α}
    (h : inside segment check = .ok a) : check = .ok a := by
  cases check with
  | error e => exact nomatch h
  | ok b =>
    cases h
    rfl

mutual

/-- The typed form of a JSON value is settled. -/
theorem ofJson_settled : ∀ (j : Json) {d : Document}, ofJson j = .ok d → d.Settled
  | .object members, _, h => ofMembers_settled members settled_empty h
  | .array values, _, h => ofValues_settled values settled_empty h
  | .null, _, h | .bool _, _, h | .number _, _, h | .string _, _, h => nomatch h

/-- Keyword by keyword, with what was taken in before. -/
theorem ofMembers_settled : ∀ (members : List (String × Json)) {seen : List Keyword}
    {d d' : Document}, d.Settled → ofMembers seen d members = .ok d' → d'.Settled
  | [], _, _, _, hd, h => by
    cases h
    exact hd
  | (key, value) :: rest, _, _, _, hd, h => by
    rw [ofMembers] at h
    split at h
    · exact ofMembers_settled rest hd h
    · split at h
      · exact nomatch h
      · obtain ⟨taken, hTaken, hRest⟩ := bind_inv h
        exact ofMembers_settled rest (withKeyword_settled value hd (inside_eq_ok hTaken)) hRest

/-- A document that is given as a sequence takes its keywords in order. -/
theorem ofValues_settled : ∀ (values : List Json) {length : Nat} {keywords : List Keyword}
    {d d' : Document} {position : Nat}, d.Settled →
      ofValues length keywords d position values = .ok d' → d'.Settled
  | [], _, _, _, _, _, hd, h => by
    rw [ofValues] at h
    split at h
    · cases h
      exact hd
    · exact nomatch h
  | value :: rest, _, keywords, _, _, _, hd, h => by
    cases keywords with
    | nil => exact nomatch h
    | cons keyword others =>
      obtain ⟨taken, hTaken, hRest⟩ := bind_inv h
      exact ofValues_settled rest (withKeyword_settled value hd (inside_eq_ok hTaken)) hRest

/-- One keyword, by what its value may be. -/
theorem withKeyword_settled : ∀ (value : Json) {keyword : Keyword} {d d' : Document},
    d.Settled → withKeyword d keyword value = .ok d' → d'.Settled
  | .null, _, _, _, hd, h | .bool _, _, _, _, hd, h | .number _, _, _, _, hd, h
  | .string _, _, _, _, hd, h => withKeyword_leaf_settled hd h (fun _ => nofun) (fun _ => nofun)
  | .array values, keyword, _, _, hd, h => by
    -- keywords that take an array, the documents in it settled in their turn
    cases keyword with
    | type | required | additionalProperties | prefixItems =>
      obtain ⟨_, -, hEnd⟩ := bind_inv h
      cases hEnd
      exact hd.congr rfl rfl rfl rfl rfl
    | items =>
      obtain ⟨form, hForm, hEnd⟩ := bind_inv h
      cases hEnd
      refine hd.withItems fun items hItems => ?_
      subst hItems
      -- an array may be a list of documents, or one document as a sequence
      rcases List.mem_cons.mp (mem_of_orElse hForm) with hTuple | hOne
      · obtain ⟨_, -, hEq⟩ := Option.map_eq_some_iff.mp hTuple.symm
        cases hEq
      · obtain ⟨document, hDocument, hEq⟩ :=
          Option.map_eq_some_iff.mp (List.mem_singleton.mp hOne).symm
        cases hEq
        exact ofValues_settled values settled_empty (toOption_inv hDocument)
    | anyOf =>
      obtain ⟨members, hMembers, hEnd⟩ := bind_inv h
      cases hEnd
      exact hd.withAnyOf (documentsFrom_settled values hMembers)
    | allOf =>
      obtain ⟨members, hMembers, hEnd⟩ := bind_inv h
      cases hEnd
      exact hd.withAllOf (documentsFrom_settled values hMembers)
    | default =>
      cases h
      exact hd.withDefault nofun
    | _ => exact nomatch h
  -- and those that take an object
  | .object members, keyword, _, _, hd, h => by
    cases keyword with
    | properties =>
      obtain ⟨pairs, hPairs, hEnd⟩ := bind_inv h
      cases hEnd
      exact hd.withProperties (pairsOf_settled members hPairs)
    | type | additionalProperties | patternProperties =>
      obtain ⟨_, -, hEnd⟩ := bind_inv h
      cases hEnd
      exact hd.congr rfl rfl rfl rfl rfl
    | items =>
      obtain ⟨form, hForm, hEnd⟩ := bind_inv h
      cases hEnd
      refine hd.withItems fun items hItems => ?_
      subst hItems
      obtain ⟨document, hDocument, hEq⟩ :=
        Option.map_eq_some_iff.mp (List.mem_singleton.mp (mem_of_orElse hForm)).symm
      cases hEq
      exact ofMembers_settled members settled_empty (toOption_inv hDocument)
    | default =>
      cases h
      exact hd.withDefault nofun
    | _ => exact nomatch h

/-- Documents in a list. -/
theorem documentsFrom_settled : ∀ (items : List Json) {position : Nat}
    {documents : List Document}, documentsFrom position items = .ok documents →
      ∀ document ∈ documents, document.Settled
  | [], _, _, h => by
    cases h
    exact nofun
  | item :: rest, _, _, h => by
    obtain ⟨first, hFirst, hMore⟩ := bind_inv h
    obtain ⟨others, hOthers, hEnd⟩ := bind_inv hMore
    cases hEnd
    exact List.forall_mem_cons.mpr
      ⟨ofJson_settled item (inside_eq_ok hFirst), documentsFrom_settled rest hOthers⟩

/-- Documents under keys. -/
theorem pairsOf_settled : ∀ (members : List (String × Json)) {pairs : List (String × Document)},
    pairsOf members = .ok pairs → ∀ entry ∈ pairs, entry.2.Settled
  | [], _, h => by
    cases h
    exact nofun
  | (key, value) :: rest, _, h => by
    obtain ⟨first, hFirst, hMore⟩ := bind_inv h
    obtain ⟨others, hOthers, hEnd⟩ := bind_inv hMore
    cases hEnd
    exact List.forall_mem_cons.mpr
      ⟨ofJson_settled value (inside_eq_ok hFirst), pairsOf_settled rest hOthers⟩

end

end Document

/-! ## Schemas -/

namespace Schema

/-- A node as loading gives it. -/
def Loaded (s : Schema) : Prop :=
  (∀ value ∈ s.default, value.KeysDistinct ∧ value ≠ .null) ∧
    match s with
    | .scalar kind _ => kind.Foreign
    | .object properties _ _ _ => (Fields.keys properties).Nodup
    | .array items _ => items.optional = false
    | .union members _ => ∀ member ∈ members, member.optional = false
    | .intersection members _ => members ≠ [] ∧ ∀ member ∈ members, member.optional = false

/-- A schema that was loaded at some place but as a property. -/
structure LoadedAlone (s : Schema) : Prop where
  unmarked : s.optional = false
  everywhere : s.Everywhere Loaded

/-- The marker of a property is set when the rest has been loaded. -/
theorem everywhere_loaded_withMarks {s : Schema} (h : s.Everywhere Loaded) (optional : Bool) :
    (s.withMarks { s.marks with optional }).Everywhere Loaded := by
  cases s <;> exact h

/-- What a type name stands for is no unknown type under a name with a
meaning. -/
theorem foreign_scalarOf {name : String} (hObject : name ≠ "object") (hArray : name ≠ "array")
    (format : Option String) : (scalarOf name format).Foreign := by
  rw [scalarOf]
  -- the names are tried one by one, and one that none of them fits is foreign
  split
  · trivial
  split
  · trivial
  split
  · trivial
  split
  · trivial
  split
  · trivial
  split
  · trivial
  split
  · trivial
  · next hString hNumber hBoolean hBigint hNull hUndefined hDate =>
    -- two names stand for a number
    have hNumber := not_or.mp hNumber
    simp only [Scalar.Foreign, Scalar.known, Scalar.names, List.cons_append, List.nil_append,
      List.mem_cons, List.not_mem_nil, or_false, not_or]
    exact ⟨hString, hNumber.1, hBoolean, hBigint, hNull, hUndefined, hDate, hNumber.2, hObject,
      hArray⟩

/-- The schema of a node under a type name, as the definition of the loader
has it. -/
def namedAt (path : List String) (d : Document) (name : String) (marks : Marks) :
    Except LoadError Schema :=
  if name = "object" then do
    let required := d.required.getD []
    let properties ← match d.properties with
      | some properties => propertiesAt required path properties
      | none => .ok []
    let additional := admitsAdditional d.additionalProperties d.patternProperties
    .ok (.object properties required additional marks)
  else if name = "array" then
    match d.items, d.prefixItems with
    | some (.one items), none => do
      .ok (.array (← ofDocumentAt (path ++ ["items"]) items) marks)
    | none, none => .error (.missingItems path)
    | _, _ => .ok (.scalar (.other "tuple") marks)
  else .ok (.scalar (scalarOf name d.format) marks)

/-- Loading goes by the keywords in this order. -/
theorem ofDocumentAt_eq (path : List String) (d : Document) :
    ofDocumentAt path d =
      match d.anyOf, d.allOf, d.type with
      | some members, _, _ => do
        .ok (.union (← compositionAt .anyOf path members) { default := d.default })
      | none, some members, _ => do
        .ok (.intersection (← compositionAt .allOf path members) { default := d.default })
      | none, none, some (.one name) => namedAt path d name { default := d.default }
      | none, none, some (.many names) => do
        .ok (.union (← names.mapM fun name => namedAt path d name {}) { default := d.default })
      | none, none, none =>
        if d.properties.isSome || d.patternProperties.isSome then
          namedAt path d "object" { default := d.default }
        else .ok (.scalar (.other "any") { default := d.default }) := by
  obtain ⟨type, properties, required, additionalProperties, patternProperties, items, prefixItems,
    anyOf, allOf, default, format⟩ := d
  rw [ofDocumentAt.eq_def]
  -- the first keyword that is there decides
  cases anyOf with
  | some members => rfl
  | none =>
    cases allOf with
    | some members => rfl
    | none =>
      cases type with
      | none => rfl
      | some names => cases names <;> rfl

/-- Whatever is loaded of the document is as loading gives it. -/
def LoadsWell (d : Document) : Prop :=
  ∀ (path : List String) (s : Schema), ofDocumentAt path d = .ok s → s.LoadedAlone

/-- Members that are loaded in order. -/
theorem membersAt_loaded {documents : List Document}
    (hDocuments : ∀ document ∈ documents, LoadsWell document) {path : List String}
    {position : Nat} {members : List Schema} (h : membersAt path position documents = .ok members) :
    ∀ member ∈ members, member.LoadedAlone := by
  -- by the documents, at the position that each has in its list
  induction documents generalizing position members with
  | nil =>
    cases h
    exact nofun
  | cons document rest ih =>
    rw [membersAt] at h
    obtain ⟨first, hFirst, hMore⟩ := bind_inv h
    obtain ⟨others, hOthers, hEnd⟩ := bind_inv hMore
    cases hEnd
    rw [List.forall_mem_cons] at hDocuments
    exact List.forall_mem_cons.mpr ⟨hDocuments.1 _ _ hFirst, ih hDocuments.2 hOthers⟩

/-- A composition that loads has members. -/
theorem compositionAt_loaded {documents : List Document}
    (hDocuments : ∀ document ∈ documents, LoadsWell document) {keyword : Composition}
    {path : List String} {members : List Schema}
    (h : compositionAt keyword path documents = .ok members) :
    members ≠ [] ∧ ∀ member ∈ members, member.LoadedAlone := by
  cases documents with
  | nil => exact nomatch h
  | cons document rest =>
    rw [compositionAt] at h
    obtain ⟨first, hFirst, hMore⟩ := bind_inv h
    obtain ⟨others, hOthers, hEnd⟩ := bind_inv hMore
    cases hEnd
    rw [List.forall_mem_cons] at hDocuments
    exact ⟨List.cons_ne_nil _ _, List.forall_mem_cons.mpr
      ⟨hDocuments.1 _ _ hFirst, membersAt_loaded hDocuments.2 hOthers⟩⟩

/-- Properties keep their keys; the markers are set from outside. -/
theorem propertiesAt_loaded {pairs : List (String × Document)}
    (hPairs : ∀ entry ∈ pairs, LoadsWell entry.2) {required path : List String}
    {properties : List (String × Schema)} (h : propertiesAt required path pairs = .ok properties) :
    Fields.keys properties = Fields.keys pairs ∧
      ∀ entry ∈ properties, entry.2.Everywhere Loaded := by
  induction pairs generalizing properties with
  | nil =>
    cases h
    exact ⟨rfl, nofun⟩
  | cons pair rest ih =>
    obtain ⟨key, document⟩ := pair
    rw [propertiesAt] at h
    obtain ⟨schema, hSchema, hMore⟩ := bind_inv h
    obtain ⟨others, hOthers, hEnd⟩ := bind_inv hMore
    cases hEnd
    rw [List.forall_mem_cons] at hPairs
    obtain ⟨hKeys, hRest⟩ := ih hPairs.2 hOthers
    -- the marker for the property does not count among what is loaded
    refine ⟨congrArg (key :: ·) hKeys, List.forall_mem_cons.mpr ⟨?_, hRest⟩⟩
    exact everywhere_loaded_withMarks (hPairs.1 _ _ hSchema).everywhere _

/-- The node under a type name, if the parts of the document are loaded well. -/
theorem namedAt_loaded {d : Document}
    (hKeys : ∀ pairs ∈ d.properties, (Fields.keys pairs).Nodup)
    (hProperties : ∀ pairs ∈ d.properties, ∀ entry ∈ pairs, LoadsWell entry.2)
    (hItems : ∀ items, d.items = some (.one items) → LoadsWell items) {path : List String}
    {name : String} {default : Option Json}
    (hDefault : ∀ value ∈ default, value.KeysDistinct ∧ value ≠ .null) {s : Schema}
    (h : namedAt path d name { default } = .ok s) : s.LoadedAlone := by
  unfold namedAt at h
  -- an object, an array and a scalar in turn
  split at h
  · dsimp only at h
    -- an object without the keyword has no properties
    split at h
    · next pairs hPairs =>
      obtain ⟨properties, hFound, hEnd⟩ := bind_inv h
      cases hEnd
      obtain ⟨hSameKeys, hEach⟩ := propertiesAt_loaded (hProperties pairs hPairs) hFound
      have hDistinct : (Fields.keys properties).Nodup := hSameKeys ▸ hKeys pairs hPairs
      exact ⟨rfl, ⟨hDefault, hDistinct⟩, everywhereInProperties_iff.mpr hEach⟩
    · cases h
      exact ⟨rfl, ⟨hDefault, List.nodup_nil⟩, trivial⟩
  · next hObject =>
    split at h
    · split at h
      · next items hOne _ =>
        obtain ⟨loaded, hLoaded, hEnd⟩ := bind_inv h
        cases hEnd
        have hItem := hItems items hOne _ _ hLoaded
        exact ⟨rfl, ⟨hDefault, hItem.unmarked⟩, hItem.everywhere⟩
      · exact nomatch h
      · cases h
        exact ⟨rfl, hDefault, (by decide : "tuple" ∉ Scalar.known)⟩
    · next hArray =>
      cases h
      exact ⟨rfl, hDefault, foreign_scalarOf hObject hArray _⟩

/-- A composition is as loading gives it if its members are. -/
theorem loadedAlone_union {members : List Schema} {default : Option Json}
    (hDefault : ∀ value ∈ default, value.KeysDistinct ∧ value ≠ .null)
    (hMembers : ∀ member ∈ members, member.LoadedAlone) :
    (Schema.union members { default }).LoadedAlone :=
  ⟨rfl, ⟨hDefault, fun member hMember => (hMembers member hMember).unmarked⟩,
    everywhereInMembers_iff.mpr fun member hMember => (hMembers member hMember).everywhere⟩

/-- A settled document is loaded well. -/
theorem loadsWell_of_settled {d : Document} (h : d.Settled) : LoadsWell d := by
  induction h with
  | @mk d hDefault hKeys _ _ _ _ hProperties hItems hAnyOf hAllOf =>
    intro path s hLoad
    rw [ofDocumentAt_eq] at hLoad
    -- choices, then conjunctions, one type name, several, and none
    split at hLoad
    · next documents hSome =>
      obtain ⟨members, hMembers, hEnd⟩ := bind_inv hLoad
      cases hEnd
      exact loadedAlone_union hDefault (compositionAt_loaded (hAnyOf documents hSome) hMembers).2
    · next documents _ hSome =>
      obtain ⟨members, hMembers, hEnd⟩ := bind_inv hLoad
      cases hEnd
      obtain ⟨hNonempty, hEach⟩ := compositionAt_loaded (hAllOf documents hSome) hMembers
      exact ⟨rfl, ⟨hDefault, hNonempty, fun member hMember => (hEach member hMember).unmarked⟩,
        everywhereInMembers_iff.mpr fun member hMember => (hEach member hMember).everywhere⟩
    · exact namedAt_loaded hKeys hProperties hItems hDefault hLoad
    · next names _ _ _ =>
      obtain ⟨members, hMembers, hEnd⟩ := bind_inv hLoad
      cases hEnd
      -- the names share the parts of the document, but not its default
      refine loadedAlone_union hDefault fun member hMember => ?_
      obtain ⟨name, -, hNamed⟩ := mapM_inv hMembers member hMember
      have hNone : ∀ value ∈ (none : Option Json), value.KeysDistinct ∧ value ≠ .null := nofun
      exact namedAt_loaded hKeys hProperties hItems hNone hNamed
    · split at hLoad
      · exact namedAt_loaded hKeys hProperties hItems hDefault hLoad
      · cases hLoad
        exact ⟨rfl, hDefault, (by decide : "any" ∉ Scalar.known)⟩

/-- What is loaded of a JSON value. -/
theorem ofDocumentJson_loaded {value : Json} {s : Schema} (h : ofDocumentJson value = .ok s) :
    s.LoadedAlone := by
  obtain ⟨d, hDocument, hLoad⟩ := bind_inv h
  refine loadsWell_of_settled (Document.ofJson_settled value ?_) [] s hLoad
  cases hTyped : Document.ofJson value with
  | error fault =>
    rw [hTyped] at hDocument
    exact nomatch hDocument
  | ok typed =>
    rw [hTyped] at hDocument
    cases hDocument
    rfl

end Schema

end JsonStencil
