import JsonStencil.Proofs.Content
import JsonStencil.Proofs.Everywhere
import JsonStencil.Proofs.Joins

/-!
# Only declared content matters

A plan cannot tell a value from the same value without some of the entries
that hold undefined, and neither can the generic text. Where a schema
describes an object by its properties it asks for these properties one by
one. There the order of the entries does not matter either, nor does any
entry under a key that is not declared.

Main definitions:

* `Schema.Edit` — a change at one position that the schema does not speak of.

Main results:

* `Edit.direct_eq` — an edit changes nothing that is written.
* `encode_declared_content` — only declared content that is defined matters.
-/

namespace JsonStencil

namespace Value

/-! ## Lookups among edited entries -/

variable (before after : List (String × Value))

/-- Looking up another key passes over an entry. -/
theorem get_insert {key name : String} (h : name ≠ key) (value : Value) :
    (Value.object (before ++ (key, value) :: after)).get name =
      (Value.object (before ++ after)).get name := by
  have hOther : (name == key) = false := beq_eq_false_iff_ne.mpr h
  rw [get, get, List.lookup_append, List.lookup_append, List.lookup_cons, hOther]

/-- Where one entry holds another value, a lookup finds what it found before or
goes from the one value to the other. -/
theorem get_replace (key : String) (value other : Value) (name : String) :
    (Value.object (before ++ (key, value) :: after)).get name =
        (Value.object (before ++ (key, other) :: after)).get name ∨
      name = key ∧ (Value.object (before ++ (key, value) :: after)).get name = value ∧
        (Value.object (before ++ (key, other) :: after)).get name = other := by
  by_cases hName : name = key
  · rw [hName, get, get, List.lookup_append, List.lookup_append, List.lookup_cons_self,
      List.lookup_cons_self]
    cases before.lookup key with
    | none => exact Or.inr ⟨rfl, rfl, rfl⟩
    | some _ => exact Or.inl rfl
  · rw [get_insert before after hName, get_insert before after hName]
    exact Or.inl rfl

end Value

namespace Schema

/-! ## What a node writes, by what it is peeled to -/

variable {s : Schema}

/-- An object that is described by its properties is written field by field,
whether it is declared so or merged from the members of an intersection. -/
theorem node_of_object {properties : List (String × Schema)} {required : List String}
    {marks : Marks} (h : s.peel.schema.merge = .object properties required false marks) :
    s.node = .object properties (Guard.of? s.peel.nullable s.peel.undefinable "null") := by
  unfold node
  cases hCore : s.peel.schema with
  | object _ _ _ _ =>
    rw [hCore] at h
    simp only [objectNode, h]
    rfl
  | intersection members _ =>
    rw [hCore] at h
    -- an intersection that does not merge stays one, and is no object
    by_cases hMerges : anyObjectTyped members = true
    · simp only [hMerges, if_true, objectNode, h]
      rfl
    · rw [merge, if_neg hMerges] at h
      cases h
  | _ =>
    rw [hCore, merge] at h
    · cases h
    all_goals (intros; contradiction)

/-- A node that is peeled to an array is written item by item, behind what
peeling took off it. -/
theorem node_of_array {items : Schema} {marks : Marks} (h : s.peel.schema = .array items marks) :
    s.node = items.arrayNode (Guard.of? s.peel.nullable s.peel.undefinable "null") := by
  unfold node
  simp only [h]

/-- Where the schema describes an object, an object is written field by field:
no guard stands in its way. -/
theorem direct_of_object {properties : List (String × Schema)} {required : List String}
    {marks : Marks} (h : s.peel.schema.merge = .object properties required false marks)
    (escaping : Json.Escaping) (entries : List (String × Value)) :
    s.direct escaping (.object entries) =
      braced (directFields escaping properties (.object entries)) := by
  rw [direct_eq, node_of_object h, Node.direct, guardedText_of?]
  cases s.peel.nullable <;> cases s.peel.undefinable <;> rfl

/-- Where the schema describes an array, the items are written one by one. -/
theorem direct_of_array {items : Schema} {marks : Marks} (h : s.peel.schema = .array items marks)
    (escaping : Json.Escaping) (entries : List Value) :
    s.direct escaping (.array entries) = bracketed (entries.map (directItem escaping items)) := by
  rw [direct_eq, node_of_array h, direct_arrayNode, guardedText_of_not_hits (guardHits_array ..)]
  rfl

/-! ## Fields -/

section Fields

variable {escaping : Json.Escaping} {v w : Value}

/-- A field is known by what its property finds. -/
theorem directField_congr {key : String} {property : Schema}
    (hUndefined : (v.get key).isUndefined = (w.get key).isUndefined)
    (hDirect : property.direct escaping (v.get key) = property.direct escaping (w.get key)) :
    directField escaping key property v = directField escaping key property w := by
  rw [directField, directField, hUndefined, hDirect]

/-- Fields that are written alike one by one are written alike together. -/
theorem directFields_congr {properties : List (String × Schema)}
    (h : ∀ entry ∈ properties,
      directField escaping entry.1 entry.2 v = directField escaping entry.1 entry.2 w) :
    directFields escaping properties v = directFields escaping properties w := by
  induction properties with
  | nil => rw [directFields, directFields]
  | cons entry rest ih =>
    rw [List.forall_mem_cons] at h
    rw [directFields_cons, directFields_cons, h.1, ih h.2]

/-- Where every property finds the same value, the fields are the same. -/
theorem directFields_eq_of_get {properties : List (String × Schema)}
    (h : ∀ key ∈ Fields.keys properties, v.get key = w.get key) :
    directFields escaping properties v = directFields escaping properties w :=
  directFields_congr fun entry hEntry => by
    have hGet := h entry.1 (List.mem_map_of_mem hEntry)
    exact directField_congr (congrArg Value.isUndefined hGet) (congrArg _ hGet)

end Fields

/-! ## Edits -/

/-- A change of a value at one position where the schema describes an object by
its properties: the entries are put in another order, or an entry under a key
that is not declared is put in. The position is the value itself, or one that
is reached through declared properties and items of arrays. -/
inductive Edit : Schema → Value → Value → Prop where
  | reordered {s : Schema} {properties : List (String × Schema)} {required : List String}
    {marks : Marks} (described : s.peel.schema.merge = .object properties required false marks)
    {entries others : List (String × Value)} (keys : (Fields.keys entries).Nodup)
    (order : entries.Perm others) : Edit s (.object entries) (.object others)
  | undeclared {s : Schema} {properties : List (String × Schema)} {required : List String}
    {marks : Marks} (described : s.peel.schema.merge = .object properties required false marks)
    (before : List (String × Value)) {key : String} (value : Value)
    (after : List (String × Value)) (notDeclared : key ∉ Fields.keys properties) :
    Edit s (.object (before ++ after)) (.object (before ++ (key, value) :: after))
  | property {s : Schema} {properties : List (String × Schema)} {required : List String}
    {marks : Marks} (described : s.peel.schema.merge = .object properties required false marks)
    {key : String} {property : Schema} (declared : (key, property) ∈ properties)
    (before : List (String × Value)) {value other : Value} (after : List (String × Value))
    (inside : Edit property value other) :
    Edit s (.object (before ++ (key, value) :: after)) (.object (before ++ (key, other) :: after))
  | item {s items : Schema} {marks : Marks} (described : s.peel.schema = .array items marks)
    (before : List Value) {entry other : Value} (after : List Value)
    (inside : Edit items entry other) :
    Edit s (.array (before ++ entry :: after)) (.array (before ++ other :: after))

namespace Edit

variable {v w : Value}

/-- Nothing becomes undefined, and nothing that was undefined is edited. -/
theorem isUndefined_eq (h : s.Edit v w) : v.isUndefined = w.isUndefined := by
  cases h <;> rfl

/-- A string of digits has no position to be edited at. -/
theorem isIntegerString_eq_false (h : s.Edit v w) : s.isIntegerString = false := by
  cases hDigits : s.isIntegerString with
  | false => rfl
  | true =>
    obtain ⟨members, marks, hUnion⟩ := union_of_isIntegerString (isIntegerString_peel hDigits)
    -- an edit needs an object or an array there, not a union
    cases h with
    | reordered described _ _ | undeclared described _ _ _ _ | property described _ _ _ _ =>
      rw [hUnion, merge] at described
      · cases described
      all_goals (intros; contradiction)
    | item described _ _ _ =>
      rw [hUnion] at described
      cases described

/-- An edit changes nothing that is written. -/
theorem direct_eq (h : s.Edit v w) (hKeys : s.Everywhere KeysDistinct)
    (escaping : Json.Escaping) : s.direct escaping v = s.direct escaping w := by
  induction h with
  | reordered described keys order =>
    -- a field asks for its key, wherever the entry stands
    rw [direct_of_object described, direct_of_object described]
    refine congrArg braced (directFields_eq_of_get fun key _ => ?_)
    rw [Value.get, Value.get, Fields.lookup_perm keys order]
  | @undeclared _ _ _ _ described before key value after notDeclared =>
    rw [direct_of_object described, direct_of_object described]
    refine congrArg braced (directFields_eq_of_get fun name hName => ?_)
    -- no declared key is that of the new entry
    have hOther : name ≠ key := fun hSame => notDeclared (hSame ▸ hName)
    exact (Value.get_insert before after hOther value).symm
  | @property _ _ _ _ described key property declared before value other after inside ih =>
    rw [direct_of_object described, direct_of_object described]
    have hObject := everywhere_merge keysDistinct_mergeClosed _ (everywhere_peel hKeys)
    rw [described] at hObject
    refine congrArg braced (directFields_congr fun entry hEntry => ?_)
    rcases Value.get_replace before after key value other entry.1 with
      hSame | ⟨hKey, hValue, hOther⟩
    · exact directField_congr (congrArg Value.isUndefined hSame) (congrArg _ hSame)
    · -- the key is that of the edited property, and of no other one
      have hEq := Fields.eq_of_key_eq hObject.1 hEntry declared hKey
      subst hEq
      refine directField_congr ?_ ?_
      · rw [hValue, hOther, inside.isUndefined_eq]
      · rw [hValue, hOther]
        exact ih (everywhereInProperties_iff.mp hObject.2 _ declared)
  | @item _ items _ described before entry other after inside ih =>
    rw [direct_of_array described, direct_of_array described]
    have hItems := everywhere_peel hKeys
    rw [described] at hItems
    -- items that are edited are no strings of digits, so each is written by itself
    have hNoDigits := inside.isIntegerString_eq_false
    have hItem : directItem escaping items entry = directItem escaping items other := by
      rw [directItem_eq_direct hNoDigits, directItem_eq_direct hNoDigits, ih hItems.2]
    rw [List.map_append, List.map_append, List.map_cons, List.map_cons, hItem]

/-- Nor does any number of edits, there and back. -/
theorem encode_eq (h : Relation.EqvGen s.Edit v w) (hKeys : s.Everywhere KeysDistinct)
    (escaping : Json.Escaping) :
    (Encoder.ofSchema s escaping).encode v = (Encoder.ofSchema s escaping).encode w := by
  rw [Encoder.encode_eq_direct, Encoder.encode_eq_direct]
  -- the encoder is the direct text, and equality of texts is an equivalence
  induction h with
  | rel _ _ hEdit => rw [hEdit.direct_eq hKeys]
  | refl _ => rfl
  | symm _ _ _ ih => exact ih.symm
  | trans _ _ _ _ _ ihFirst ihSecond => exact ihFirst.trans ihSecond

end Edit

/-- **Only declared content that is defined matters.** Whatever the plan, it writes
the same text for a value without some of the entries that hold undefined, at
any depth, or fails in the same way, and so the generic text is the same. And
a schema writes the same text for a value after any number of edits: where it
describes an object by its properties, entries may change places, and entries
under keys that are not declared may come and go. -/
theorem encode_declared_content (escaping : Json.Escaping) :
    (∀ {v w : Value}, v.KeysDistinct → Relation.ReflTransGen Value.Omits v w →
      (∀ p : Plan, p.run escaping w = p.run escaping v) ∧ w.text = v.text) ∧
    ∀ {s : Schema} {v w : Value}, s.Everywhere KeysDistinct → Relation.EqvGen s.Edit v w →
      (Encoder.ofSchema s escaping).encode w = (Encoder.ofSchema s escaping).encode v := by
  constructor
  · intro v w hKeys hOmits
    have hSame := Value.Omits.sameContent hOmits hKeys
    exact ⟨fun p => (p.run_sameContent escaping hSame).symm,
      (hSame.text_eq Value.text_pruned).symm⟩
  · intro s v w hKeys hEdits
    exact (Edit.encode_eq hEdits hKeys escaping).symm

/-- A list of readings loses a note and a unit that are undefined, and one of
its readings has its bounds swapped and gains a colour. -/
theorem encode_declared_content_readings :
    let reading := ofProperties [("low", number), ("high", number)]
    let one := Value.number (.integer 1)
    let two := Value.number (.integer 2)
    let noted := Value.object
      [("note", .undefined), ("readings", .array [.object [("unit", .undefined), ("low", one)]])]
    let bare := Value.object [("readings", .array [.object [("low", one)]])]
    let plain := Value.array [.object [("low", one), ("high", two)]]
    let coloured := Value.array [.object [("high", two), ("colour", .string "red"), ("low", one)]]
    let copying : Plan := ⟨[.generic (.field .root "readings")], 0, [], 0⟩
    (noted.KeysDistinct ∧ Relation.ReflTransGen Value.Omits noted bare) ∧
      (copying.run .json bare = copying.run .json noted ∧ bare.text = noted.text) ∧
      ((arrayOf reading).Everywhere KeysDistinct ∧
        Relation.EqvGen (arrayOf reading).Edit plain coloured) ∧
      (Encoder.ofSchema (arrayOf reading) .json).encode coloured =
        (Encoder.ofSchema (arrayOf reading) .json).encode plain := by
  intro reading one two noted bare plain coloured copying
  have hDistinct : noted.KeysDistinct :=
    ⟨by decide, trivial, ⟨⟨by decide, trivial, trivial, trivial⟩, trivial⟩, trivial⟩
  have hOmits : Relation.ReflTransGen Value.Omits noted bare :=
    (Relation.ReflTransGen.single (.entry [] "note" _)).tail
      (.inEntry [] "readings" [] (.inItem [] [] (.entry [] "unit" [("low", one)])))
  have hBounds : (Fields.keys [("low", number), ("high", number)]).Nodup := by decide
  have hKeys : (arrayOf reading).Everywhere KeysDistinct :=
    ⟨trivial, hBounds, trivial, trivial, trivial⟩
  have hSwapped : (arrayOf reading).Edit plain (.array [.object [("high", two), ("low", one)]]) :=
    .item rfl [] [] (.reordered rfl (by decide) (.swap ..))
  have hColoured : (arrayOf reading).Edit (.array [.object [("high", two), ("low", one)]])
      coloured :=
    .item rfl [] [] (.undeclared rfl [("high", two)] (.string "red") [("low", one)] (by decide))
  have hEdits : Relation.EqvGen (arrayOf reading).Edit plain coloured :=
    .trans _ _ _ (.rel _ _ hSwapped) (.rel _ _ hColoured)
  obtain ⟨hPlans, hText⟩ := (encode_declared_content .json).1 hDistinct hOmits
  have hEncode := (encode_declared_content .json).2 hKeys hEdits
  exact ⟨⟨hDistinct, hOmits⟩, ⟨hPlans copying, hText⟩, ⟨hKeys, hEdits⟩, hEncode⟩

end Schema

end JsonStencil
