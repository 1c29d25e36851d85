import JsonStencil.Proofs.DocumentReadings
import JsonStencil.Proofs.TypedDocuments

/-!
# Schemas of whole texts

What a document passes over has no part in it, so a text that can be read as a
JSON value has the document of that value. Not every text with a document can:
behind keys without a meaning there may be numbers out of range, halves of
surrogate pairs and any depth of nesting. With null for what is passed over,
such a text has a value all the same, and the document is that of this value.

Both hold for texts that end with their document, whose objects do not repeat
keys. Where keys are repeated, a JSON value keeps the last one, whereas a
document refuses a keyword that it has met before.

Main definitions:

* `Document.trimmed` — a value without what is passed over.
* `Document.ReadsInRoles` — readings in roles beside a plain one.
* `Document.valueOfText` — the value of a whole text that holds a document.

Main results:

* `Document.readsInRoles` — what can be read can be read in any role.
* `Document.ofJson_trimmed` — what is passed over has no part in a document.
* `Schema.ofDocumentText_eq_ok` — schemas are loaded of text as of values.
* `Schema.ofDocumentText_whole` — the schema of a whole text.
-/

namespace JsonStencil

namespace Document

open Json (Cursor byte)

/-! ## Passing over -/

mutual

/-- The value with null in the place of whatever is unused in its role. -/
def trimmed (role : Role) : Json → Json
  | .array items => if role = .unused then .null else .array (trimmedItems role 0 items)
  | .object members => if role = .unused then .null else .object (trimmedMembers role members)
  | leaf => if role = .unused then .null else leaf

/-- The items, each trimmed in its role. -/
def trimmedItems (role : Role) (position : Nat) : List Json → List Json
  | [] => []
  | item :: rest => trimmed (role.item position) item :: trimmedItems role (position + 1) rest

/-- The members, each trimmed in its role. -/
def trimmedMembers (role : Role) : List (String × Json) → List (String × Json)
  | [] => []
  | (key, value) :: rest => (key, trimmed (role.member key) value) :: trimmedMembers role rest

end

/-- Of what is passed over there is nothing left but null. -/
theorem trimmed_unused (j : Json) : trimmed .unused j = .null := by
  cases j <;> rw [trimmed, if_pos rfl] <;> nofun

mutual

/-- A value that is looked at as a whole has nothing that is passed over. -/
theorem trimmed_plain : ∀ j : Json, trimmed .plain j = j
  | .null | .bool _ | .number _ | .string _ => rfl
  | .array items => by
    rw [trimmed, if_neg nofun, trimmedItems_plain]
  | .object members => by
    rw [trimmed, if_neg nofun, trimmedMembers_plain]

/-- Nor has any of its items. -/
theorem trimmedItems_plain : ∀ (items : List Json) {position : Nat},
    trimmedItems .plain position items = items
  | [], _ => rfl
  | item :: rest, _ => by
    rw [trimmedItems, Role.item_plain, trimmed_plain item, trimmedItems_plain rest]

/-- Nor has any of its members. -/
theorem trimmedMembers_plain : ∀ members : List (String × Json),
    trimmedMembers .plain members = members
  | [] => rfl
  | (key, value) :: rest => by
    rw [trimmedMembers, Role.member_plain, trimmed_plain value, trimmedMembers_plain rest]

end

/-- Items are replaced, not left out. -/
theorem length_trimmedItems {role : Role} {position : Nat} {items : List Json} :
    (trimmedItems role position items).length = items.length := by
  induction items generalizing position with
  | nil => rfl
  | cons item rest ih => rw [trimmedItems, List.length_cons, List.length_cons, ih]

/-- What can be read can be read in any role. -/
def ReadsInRoles (depth : Nat) : Prop :=
  ∀ (role : Role) (c behind : Cursor) (j : Json), Json.readValue depth c = .ok (j, behind) →
    readAs depth role c = .ok (trimmed role j, behind)

section Reading

variable {role : Role} {deeper : Nat} {c behind : Cursor}

/-- Items that can be read as they stand can be read in any role, given as many
steps. -/
theorem readItemsBy_trimmed (h : ReadsInRoles deeper) {fuel fuel' position : Nat}
    (hFuel : fuel ≤ fuel') {items : List Json}
    (hRead : Json.readItems (Json.readValue deeper) fuel position c = .ok (items, behind)) :
    readItemsBy (fun position => readAs deeper (role.item position)) fuel' position c =
      .ok (trimmedItems role position items, behind) := by
  rw [← readItemsBy_const] at hRead
  -- by the steps that the plain reading may take; the other one has at least as many
  induction fuel generalizing fuel' position c items with
  | zero => cases hRead
  | succ fuel ih =>
    obtain ⟨fuel', rfl⟩ := Nat.exists_eq_succ_of_ne_zero (Nat.ne_zero_of_lt hFuel)
    obtain ⟨between, hMore, rfl, hBehind⟩ |
      ⟨between, after, first, others, hMore, hFirst, hOthers, rfl⟩ := readItemsBy_succ.mp hRead
    · -- the closing bracket, or one item more
      exact readItemsBy_succ.mpr (Or.inl ⟨between, hMore, rfl, hBehind⟩)
    · exact readItemsBy_succ.mpr (Or.inr ⟨between, after, _, _, hMore, h _ _ _ _ hFirst,
        ih (Nat.le_of_succ_le_succ hFuel) hOthers, rfl⟩)

/-- Members that can be read as they stand can be read in any role. -/
theorem readMembersBy_trimmed (h : ReadsInRoles deeper) {fuel : Nat} {first : Bool}
    {members : List (String × Json)}
    (hRead : Json.readMembers (Json.readValue deeper) fuel first c = .ok (members, behind)) :
    readMembersBy (fun key => readAs deeper (role.member key)) fuel first c =
      .ok (trimmedMembers role members, behind) := by
  rw [← readMembersBy_const] at hRead
  -- by the steps; the role of a member is that of its key
  induction fuel generalizing first c members with
  | zero => cases hRead
  | succ fuel ih =>
    obtain ⟨hKey, rfl⟩ | ⟨key, between, colon, after, item, others, hKey, hColon, hItem, hOthers,
      rfl⟩ := readMembersBy_succ.mp hRead
    · exact readMembersBy_succ.mpr (Or.inl ⟨hKey, rfl⟩)
    · exact readMembersBy_succ.mpr (Or.inr ⟨key, between, colon, after, _, _, hKey, hColon,
        h _ _ _ _ hItem, ih hOthers, rfl⟩)

/-- What can be read can be read in any role, at any depth. -/
theorem readsInRoles (depth : Nat) : ReadsInRoles depth := by
  -- by the depth that is left, which each bracket and each brace uses up
  induction depth using Nat.strongRecOn with
  | ind depth ih =>
    intro role c behind j h
    by_cases hUsed : role = .unused
    · -- what could be read can also be passed over, up to the same place
      subst hUsed
      rw [readAs_unused, trimmed_unused, Json.skipValue_of_readValue h]
      rfl
    have hPlain : Role.plain ≠ .unused := nofun
    cases j with
    | array items =>
      -- the plain reading goes through the items, too, only in another role
      rw [← readAs_plain] at h
      obtain ⟨hBracket, deeper, rfl, hItems⟩ := (readAs_eq_array hPlain).mp h
      simp only [Role.item_plain, readAs_plain, readItemsBy_const] at hItems
      rw [trimmed, if_neg hUsed]
      exact (readAs_eq_array hUsed).mpr ⟨hBracket, deeper, rfl,
        readItemsBy_trimmed (ih deeper (Nat.lt_succ_self _)) (role.le_steps _) hItems⟩
    | object members =>
      rw [← readAs_plain] at h
      obtain ⟨hBrace, deeper, rfl, hMembers⟩ := (readAs_eq_object hPlain).mp h
      simp only [Role.member_plain, readAs_plain, readMembersBy_const] at hMembers
      rw [trimmed, if_neg hUsed]
      exact (readAs_eq_object hUsed).mpr ⟨hBrace, deeper, rfl,
        readMembersBy_trimmed (ih deeper (Nat.lt_succ_self _)) hMembers⟩
    | null | bool _ | number _ | string _ =>
      -- the same in every role
      obtain ⟨b, hPeek, hBegins⟩ := beginsWith_of_readValue h
      obtain ⟨hBracket, hBrace⟩ := hBegins.of_leaf nofun nofun
      rw [readAs_leaf hUsed (by simp [hPeek, hBracket]) (by simp [hPeek, hBrace]),
        readValue_skipBlanks, h]
      exact congrArg (fun value => Except.ok (value, behind)) (if_neg hUsed).symm

end Reading

/-! ## What is passed over -/

mutual

/-- What is passed over has no part in a document. -/
theorem ofJson_trimmed : ∀ j : Json, ofJson (trimmed .document j) = ofJson j
  | .null | .bool _ | .number _ | .string _ => rfl
  | .array values => by
    rw [trimmed, if_neg nofun, ofJson, ofJson, length_trimmedItems]
    exact ofValues_trimmed values rfl
  | .object members => by
    rw [trimmed, if_neg nofun, ofJson, ofJson, ofMembers_trimmed members]

/-- Keywords are read off the members that are left, and no other member is
read. -/
theorem ofMembers_trimmed : ∀ (members : List (String × Json)) {seen : List Keyword}
    {d : Document}, ofMembers seen d (trimmedMembers .document members) = ofMembers seen d members
  | [], _, _ => rfl
  | (key, value) :: rest, seen, d => by
    rw [trimmedMembers, ofMembers, ofMembers]
    -- a key without a meaning is passed over by both
    cases hName : Keyword.ofName? key with
    | none => exact ofMembers_trimmed rest
    | some keyword =>
      rw [Role.member_known hName]
      simp only [withKeyword_trimmed value, ofMembers_trimmed rest]

/-- Each value is read for the keyword at its position, and no value behind the
last one. -/
theorem ofValues_trimmed : ∀ (values : List Json) {length position : Nat}
    {keywords : List Keyword} {d : Document}, Keyword.all.drop position = keywords →
      ofValues length keywords d position (trimmedItems .document position values) =
        ofValues length keywords d position values
  | [], _, _, _, _, _ => rfl
  | value :: rest, length, position, [], d, _ => by
    rw [trimmedItems, ofValues, ofValues]
  | value :: rest, length, position, keyword :: others, d, h => by
    -- the keywords are told by their positions
    have hOthers : Keyword.all.drop (position + 1) = others := by
      rw [← List.tail_drop, h]
      rfl
    rw [trimmedItems, Role.item_keyword h, ofValues, ofValues]
    simp only [withKeyword_trimmed value, ofValues_trimmed rest hOthers]

/-- A keyword is set to the same value. -/
theorem withKeyword_trimmed : ∀ (value : Json) {keyword : Keyword} {d : Document},
    withKeyword d keyword (trimmed (Role.ofKeyword keyword) value) = withKeyword d keyword value
  | .null, keyword, d | .bool _, keyword, d | .number _, keyword, d | .string _, keyword, d => by
    cases keyword <;> rfl
  | .array items, keyword, d => by
    cases keyword with
    | prefixItems | anyOf | allOf =>
      -- the keywords with lists of documents go on into the items
      rw [Role.ofKeyword, trimmed, if_neg nofun, withKeyword, withKeyword,
        documentsFrom_trimmed items]
    | properties | patternProperties => rfl
    | _ => exact congrArg (withKeyword d _) (trimmed_plain _)
  | .object members, keyword, d => by
    cases keyword with
    | properties | patternProperties =>
      -- those with documents under keys go on into the members
      rw [Role.ofKeyword, trimmed, if_neg nofun, withKeyword, withKeyword,
        pairsOf_trimmed members]
    | prefixItems | anyOf | allOf => rfl
    | _ => exact congrArg (withKeyword d _) (trimmed_plain _)

/-- Documents in a list are read alike. -/
theorem documentsFrom_trimmed : ∀ (items : List Json) {start position : Nat},
    documentsFrom position (trimmedItems .documents start items) = documentsFrom position items
  | [], _, _ => rfl
  | item :: rest, _, _ => by
    rw [trimmedItems, Role.item_documents, documentsFrom, documentsFrom, ofJson_trimmed item,
      documentsFrom_trimmed rest]

/-- Documents under keys are read alike. -/
theorem pairsOf_trimmed : ∀ members : List (String × Json),
    pairsOf (trimmedMembers .fields members) = pairsOf members
  | [] => rfl
  | (key, value) :: rest => by
    rw [trimmedMembers, Role.member_fields, pairsOf, pairsOf, ofJson_trimmed value,
      pairsOf_trimmed rest]

end

/-! ## Whole texts -/

/-- The value that has been read, if nothing but blanks is left. -/
def wholeValue (reading : Except Json.Fault (Json × Cursor)) : Except Json.Fault Json := do
  let (value, c) ← reading
  let c := c.skipBlanks
  match c.peek with
  | none => .ok value.distinct
  | some _ => c.failNext .trailingCharacters

/-- The value of a whole text that holds a document. What a document passes
over need not be readable, and null stands in its place. -/
def valueOfText (text : String) : Except Json.Fault Json :=
  wholeValue (readAs Json.maxDepth .document (Cursor.start (Text.bytes text)))

/-- Whatever is read of the text as a document or as any JSON value, no object
in it repeats a key. -/
def NoRepeatedKeys (text : String) : Prop :=
  ∀ role ∈ [Role.document, .plain], ∀ read,
    readAs Json.maxDepth role (Cursor.start (Text.bytes text)) = .ok read → read.1.KeysDistinct

/-- Nothing but blanks stands behind the document at the start of the text,
where this document has a schema. -/
def EndsWithDocument (text : String) : Prop :=
  ∀ read, readDocument Json.maxDepth (Cursor.start (Text.bytes text)) = .ok read →
    ∀ s, Schema.ofDocument read.1 = .ok s → read.2.skipBlanks.peek = none

instance (text : String) : Decidable (NoRepeatedKeys text) :=
  inferInstanceAs (Decidable (∀ role ∈ [Role.document, .plain], ∀ read,
    readAs Json.maxDepth role (Cursor.start (Text.bytes text)) = .ok read → read.1.KeysDistinct))

instance (text : String) : Decidable (EndsWithDocument text) :=
  inferInstanceAs (Decidable (∀ read,
    readDocument Json.maxDepth (Cursor.start (Text.bytes text)) = .ok read →
      ∀ s, Schema.ofDocument read.1 = .ok s → read.2.skipBlanks.peek = none))

/-- A text has the value that was read, with its keys told apart, if only blanks
are left. -/
theorem wholeValue_eq_ok {reading : Except Json.Fault (Json × Cursor)} {value : Json} :
    wholeValue reading = .ok value ↔ ∃ j behind, reading = .ok (j, behind) ∧
      behind.skipBlanks.peek = none ∧ j.distinct = value := by
  rw [wholeValue, bind_eq_ok]
  constructor
  · rintro ⟨⟨j, behind⟩, hRead, hEnd⟩
    dsimp only at hEnd
    split at hEnd
    · next hBlank =>
      cases hEnd
      exact ⟨j, behind, hRead, hBlank, rfl⟩
    · cases hEnd
  · rintro ⟨j, behind, hRead, hBlank, rfl⟩
    refine ⟨(j, behind), hRead, ?_⟩
    dsimp only
    rw [hBlank]

/-- The value of a text is read in the role in which nothing is passed over. -/
theorem ofText_eq_wholeValue (text : String) :
    Json.ofText text =
      wholeValue (readAs Json.maxDepth .plain (Cursor.start (Text.bytes text))) := by
  rw [readAs_plain]
  rfl

end Document

namespace Schema

open Document
open Json (Cursor)

variable {text : String} {s : Schema}

/-- A schema of a value is that of its document. -/
theorem ofDocumentJson_eq_ok {value : Json} :
    ofDocumentJson value = .ok s ↔ ∃ d, ofJson value = .ok d ∧ ofDocument d = .ok s := by
  simp only [ofDocumentJson, bind_eq_ok, mapError_eq_ok]

/-- A schema is loaded of text as it is of the value that is read as a
document. -/
theorem ofDocumentText_eq_ok :
    ofDocumentText text = .ok s ↔ ∃ value behind,
      readAs Json.maxDepth .document (Cursor.start (Text.bytes text)) = .ok (value, behind) ∧
        ofDocumentJson value = .ok s := by
  simp only [ofDocumentText, Document.ofText, ofBytes, bind_eq_ok, mapError_eq_ok, map_eq_ok,
    ofDocumentJson_eq_ok]
  constructor
  · rintro ⟨_, ⟨⟨d, behind⟩, hRead, rfl⟩, hSchema⟩
    obtain ⟨value, hValue, hDocument⟩ := (readDocument_agrees _ _ _ _).mp hRead
    exact ⟨value, behind, hValue, d, hDocument, hSchema⟩
  · rintro ⟨value, behind, hValue, d, hDocument, hSchema⟩
    exact ⟨d, ⟨(d, behind), (readDocument_agrees _ _ _ _).mpr ⟨value, hValue, hDocument⟩, rfl⟩,
      hSchema⟩

/-- The schema of a text without repeated keys. The bytes of the text have the
same schema, and if the text can be read as a JSON value, its schema is that of
the value. If nothing but blanks stands behind its document where that has a
schema, the text has a schema exactly if it has a value, null standing for what
is passed over, and this value has that schema. -/
theorem ofDocumentText_whole (hKeys : NoRepeatedKeys text) :
    ofDocumentBytes (Text.bytes text) = ofDocumentText text ∧
    (∀ value, Json.ofText text = .ok value →
      valueOfText text = .ok (trimmed .document value) ∧
        ∀ s, ofDocumentText text = .ok s ↔ ofDocumentJson value = .ok s) ∧
    (EndsWithDocument text → ∀ s, ofDocumentText text = .ok s ↔
      ∃ value, valueOfText text = .ok value ∧ ofDocumentJson value = .ok s) := by
  refine ⟨rfl, fun value hText => ?_, fun hEnds s => ?_⟩
  · -- the value that was read is read as a document, too, and loses only what is passed over
    rw [ofText_eq_wholeValue] at hText
    obtain ⟨j, behind, hRead, hBlank, rfl⟩ := wholeValue_eq_ok.mp hText
    -- no key is repeated, so none is lost by telling them apart
    rw [Json.distinct_eq_self j (hKeys .plain (by decide) (j, behind) hRead)]
    rw [readAs_plain] at hRead
    have hDocument := readsInRoles _ .document _ _ _ hRead
    have hDistinct := Json.distinct_eq_self _ (hKeys .document (by decide) (_, behind) hDocument)
    refine ⟨wholeValue_eq_ok.mpr ⟨_, behind, hDocument, hBlank, hDistinct⟩, fun s => ?_⟩
    rw [ofDocumentText_eq_ok]
    constructor
    · rintro ⟨value, last, hValue, hSchema⟩
      cases hDocument.symm.trans hValue
      rwa [ofDocumentJson, ofJson_trimmed] at hSchema
    · intro hSchema
      refine ⟨_, behind, hDocument, ?_⟩
      rwa [ofDocumentJson, ofJson_trimmed]
  · -- a text with a schema has a document, and then it is known what stands behind
    rw [ofDocumentText_eq_ok]
    constructor
    · rintro ⟨value, behind, hRead, hSchema⟩
      obtain ⟨d, hDocument, hLowered⟩ := ofDocumentJson_eq_ok.mp hSchema
      have hBlank :=
        hEnds (d, behind) ((readDocument_agrees _ _ _ _).mpr ⟨value, hRead, hDocument⟩) s hLowered
      have hDistinct :=
        Json.distinct_eq_self value (hKeys .document (by decide) (value, behind) hRead)
      exact ⟨value, wholeValue_eq_ok.mpr ⟨value, behind, hRead, hBlank, hDistinct⟩, hSchema⟩
    · rintro ⟨value, hValue, hSchema⟩
      obtain ⟨j, behind, hRead, -, rfl⟩ := wholeValue_eq_ok.mp hValue
      rw [Json.distinct_eq_self j (hKeys .document (by decide) (j, behind) hRead)] at hSchema
      exact ⟨j, behind, hRead, hSchema⟩

/-- A document that passes over an array, with a line break behind it. -/
def numbersBeside : String := "\x7b\"type\":\"number\",\"x\":[1]\x7d\n"

/-- The array has no part in the document, and the text has the schema of its
value. -/
theorem ofDocumentText_whole_numbersBeside :
    NoRepeatedKeys numbersBeside ∧ EndsWithDocument numbersBeside ∧
    ∃ value s, Json.ofText numbersBeside = .ok value ∧
      valueOfText numbersBeside = .ok (trimmed .document value) ∧
      ofDocumentJson value = .ok s ∧ ofDocumentJson (trimmed .document value) = .ok s ∧
      ofDocumentText numbersBeside = .ok s ∧ ofDocumentBytes (Text.bytes numbersBeside) = .ok s := by
  have hKeys : NoRepeatedKeys numbersBeside := by decide +kernel
  have hEnds : EndsWithDocument numbersBeside := by decide +kernel
  have hText : (Json.ofText numbersBeside).toOption.isSome = true := by decide +kernel
  have hSchema : (ofDocumentText numbersBeside).toOption.isSome = true := by decide +kernel
  obtain ⟨value, hText⟩ := Option.isSome_iff_exists.mp hText
  obtain ⟨s, hSchema⟩ := Option.isSome_iff_exists.mp hSchema
  obtain ⟨hBytes, hValue, hLoads⟩ := ofDocumentText_whole hKeys
  obtain ⟨hTrimmed, hSame⟩ := hValue value (toOption_inv hText)
  -- the value of the document is the one without the array
  obtain ⟨_, hFound, hLoaded⟩ := (hLoads hEnds s).mp (toOption_inv hSchema)
  cases hTrimmed.symm.trans hFound
  exact ⟨hKeys, hEnds, value, s, toOption_inv hText, hTrimmed, (hSame s).mp (toOption_inv hSchema),
    hLoaded, toOption_inv hSchema, hBytes.trans (toOption_inv hSchema)⟩

/-- A document that passes over a number out of range. -/
def outOfRange : String := "\x7b\"x\":1e999\x7d"

/-- Such a text has a schema, although it cannot be read as a JSON value. -/
theorem not_ofDocumentText_outOfRange : NoRepeatedKeys outOfRange ∧
    ¬ ∀ s, ofDocumentText outOfRange = .ok s ↔
      ∃ value, Json.ofText outOfRange = .ok value ∧ ofDocumentJson value = .ok s := by
  refine ⟨by decide +kernel, fun h => ?_⟩
  have hSchema : (ofDocumentText outOfRange).toOption.isSome = true := by decide +kernel
  have hText : (Json.ofText outOfRange).toOption.isSome = false := by decide +kernel
  -- the schema there is would need a value of the text
  obtain ⟨s, hSchema⟩ := Option.isSome_iff_exists.mp hSchema
  obtain ⟨value, hValue, -⟩ := (h s).mp (toOption_inv hSchema)
  rw [hValue] at hText
  cases hText

end Schema

end JsonStencil
