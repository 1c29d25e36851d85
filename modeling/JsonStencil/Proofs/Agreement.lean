import JsonStencil.Proofs.Everywhere
import JsonStencil.Proofs.Leaves
import JsonStencil.Proofs.Pruned
import JsonStencil.Proofs.Simulation

/-!
# Agreement with the generic text

A value that fits its schema is written as the generic text writes it, but
for the order of the members: where the schema describes an object, these
follow the declaration. The value with its entries put into that order, and
without those that hold undefined, has exactly the text that is written.

Fitting is asked only of the positions that the schema reaches. A default
would be written where the generic text has nothing, so the schema must have
none.

Main definitions:

* `Schema.Fits` — a value that fits a node.
* `Schema.arranged` — the value with its entries in the order of
  declaration.

Main results:

* `direct_eq_text_arranged` — what is written is the text of that value.
* `arranged_sameUpToOrder` — which is the given one up to the order of
  entries.
* `encode_eq_text_arranged` — the same for the encoder of a schema.
-/

namespace JsonStencil

namespace Schema

/-! ## Fitting -/

/-- What a property asks of the value under its key: that nothing is there if
the property is undefined alone, and else that something is unless the property
may be absent. -/
def Allows (property : Schema) (v : Value) : Prop :=
  if property.isUndefined then v.isUndefined = true
  else property.optional = true ∨ v.isUndefined = false

instance (property : Schema) (v : Value) : Decidable (property.Allows v) :=
  inferInstanceAs (Decidable (if property.isUndefined then v.isUndefined = true
    else property.optional = true ∨ v.isUndefined = false))

/-- A property with something under its key is not undefined alone. -/
theorem Allows.defined {property : Schema} {v : Value} (h : property.Allows v)
    (hThere : v.isUndefined = false) : property.isUndefined = false := by
  rw [Allows] at h
  split at h
  · rw [h] at hThere
    cases hThere
  · next hDefined => exact Bool.eq_false_iff.mpr hDefined

/-- A value that fits a node: the node is not undefined alone, no string is
copied without quotes, and where the node describes an object and no guard
hits, the value is an object with entries under declared keys alone, in which
every property finds what it asks for. -/
structure Fits (s : Schema) (v : Value) : Prop where
  defined : s.isUndefined = false
  raw : s.CopiesNoString v
  object : ∀ {properties : List (String × Schema)} {guard : Option Guard},
    s.node = .object properties guard → guardHits guard v = false →
      ∃ entries, v = .object entries ∧
        (∀ entry ∈ entries, entry.2.isUndefined = false →
          entry.1 ∈ Fields.keys properties) ∧
        ∀ entry ∈ properties, entry.2.Allows (v.get entry.1)

/-! ## Arranging -/

/-- The value without undefined entries, and with the entries in the order of
declaration wherever the schema describes an object. -/
def arranged (s : Schema) (v : Value) : Value :=
  match _h : s.node with
  | .object properties guard =>
    if guardHits guard v then v.pruned
    else .object (properties.attach.filterMap fun entry =>
      if (v.get entry.1.1).isUndefined then none
      else some (entry.1.1, arranged entry.1.2 (v.get entry.1.1)))
  | .loop items _ =>
    match v with
    | .array entries => .array (entries.map fun entry => arranged items entry)
    | other => other.pruned
  | _ => v.pruned
termination_by s.weight
decreasing_by
  · exact weight_lt_of_mem_parts (by rw [_h]; exact List.mem_map_of_mem entry.2)
  · exact weight_lt_of_mem_parts (by rw [_h]; exact List.mem_singleton_self _)

/-- The entries that are there, in the order of declaration. -/
def inOrder (read : Schema → Value → Value) (properties : List (String × Schema)) (v : Value) :
    List (String × Value) :=
  properties.filterMap fun entry =>
    if (v.get entry.1).isUndefined then none
    else some (entry.1, read entry.2 (v.get entry.1))

section Arranged

variable {s : Schema} {v : Value}

/-- An object behind its guard is arranged property by property. -/
theorem arranged_object {properties : List (String × Schema)} {guard : Option Guard}
    (hNode : s.node = .object properties guard) (hBehind : guardHits guard v = false) :
    s.arranged v = .object (inOrder arranged properties v) := by
  -- the properties are attached for termination only
  have hList (f : String × Schema → Option (String × Value)) :
      properties.attach.filterMap (f ∘ Subtype.val) = properties.filterMap f := by
    rw [← List.filterMap_map, List.attach_map_subtype_val]
  rw [arranged]
  split
  · next hEq =>
    rw [hNode] at hEq
    cases hEq
    rw [hBehind, if_neg Bool.false_ne_true, inOrder, ← hList]
    rfl
  · next hEq => exact nomatch hNode.symm.trans hEq
  · next hEq _ => exact absurd hNode (hEq _ _)

/-- Where the guard hits, there is nothing to put in order. -/
theorem arranged_of_hits {properties : List (String × Schema)} {guard : Option Guard}
    (hNode : s.node = .object properties guard) (hHits : guardHits guard v = true) :
    s.arranged v = v.pruned := by
  rw [arranged]
  split
  · next hEq =>
    rw [hNode] at hEq
    cases hEq
    rw [hHits, if_pos rfl]
  · next hEq => exact nomatch hNode.symm.trans hEq
  · next hEq _ => exact absurd hNode (hEq _ _)

/-- The entries of an array are arranged one by one. -/
theorem arranged_loop {items : Schema} {guard : Option Guard} {entries : List Value}
    (hNode : s.node = .loop items guard) :
    s.arranged (.array entries) = .array (entries.map items.arranged) := by
  rw [arranged]
  split
  · next hEq => exact nomatch hNode.symm.trans hEq
  · next hEq =>
    rw [hNode] at hEq
    cases hEq
    rfl
  · next hEq => exact absurd hNode (hEq _ _)

/-- Away from objects and arrays of nodes a value is pruned and no more. -/
theorem arranged_leaf (hLeaf : s.node.isLeaf = true) : s.arranged v = v.pruned := by
  rw [arranged]
  split
  · next hEq => exact nomatch (congrArg Node.isLeaf hEq).symm.trans hLeaf
  · next hEq => exact nomatch (congrArg Node.isLeaf hEq).symm.trans hLeaf
  · rfl

/-- Where items are expected, anything but an array is pruned and no more. -/
theorem arranged_of_not_array {items : Schema} {guard : Option Guard}
    (hNode : s.node = .loop items guard) (hArray : ∀ entries, v ≠ .array entries) :
    s.arranged v = v.pruned := by
  rw [arranged]
  split
  · next hEq => exact nomatch hNode.symm.trans hEq
  · split
    · exact absurd rfl (hArray _)
    · rfl
  · rfl

/-- What is there stays there. -/
theorem isUndefined_arranged (s : Schema) (h : v.isUndefined = false) :
    (s.arranged v).isUndefined = false := by
  -- no branch makes undefined out of anything else
  rw [arranged]
  split
  · split
    · rw [Value.isUndefined_pruned, h]
    · rfl
  · split
    · rfl
    · rw [Value.isUndefined_pruned, h]
  · rw [Value.isUndefined_pruned, h]

end Arranged

/-! ## Leaves -/

section Leaves

variable {s : Schema} {v : Value}

/-- Without defaults a guard writes `null`, which is the generic text of the
value that it hits. -/
theorem guardedText_eq_text (hPlain : s.Everywhere Plain) {text : String}
    (hText : guardHits s.node.guard v = false → text = v.text) :
    guardedText s.node.guard v text = v.text := by
  cases hHits : guardHits s.node.guard v with
  | false => rw [guardedText_of_not_hits hHits, hText hHits]
  | true =>
    obtain ⟨guard, hGuard, hWritten⟩ := guardedText_of_hits hHits text
    -- neither the peeled node nor the declared one has a default to write instead
    have hNone : defaultText s.peel.schema s = "null" := by
      have hPeeled : s.peel.schema.default = none := (everywhere_peel hPlain).here
      have hDeclared : s.default = none := hPlain.here
      rw [defaultText, hPeeled, hDeclared]
    have hFallback : guard.fallback = "null" :=
      (fallback_of_node hGuard).elim id fun h => h.trans hNone
    rw [hWritten, hFallback]
    -- a guard hits null and undefined only, and both have the text `null`
    rcases nullish_of_guardHits hHits with rfl | rfl <;> rfl

end Leaves

/-! ## Fields -/

/-- The fields that are written are the entries of the arranged object. -/
theorem directFields_eq_entryTexts {v : Value} {properties : List (String × Schema)}
    (hDefault : ∀ entry ∈ properties, entry.2.default = none)
    (hAllows : ∀ entry ∈ properties, entry.2.Allows (v.get entry.1))
    (hText : ∀ entry ∈ properties, entry.2.isUndefined = false →
      (v.get entry.1).isUndefined = false →
        entry.2.direct .json (v.get entry.1) = (entry.2.arranged (v.get entry.1)).text) :
    directFields .json properties v = Value.entryTexts (inOrder arranged properties v) := by
  -- property by property, since both sides go along the declaration
  induction properties with
  | nil => rw [directFields, inOrder, List.filterMap_nil, Value.entryTexts]
  | cons entry rest ih =>
    obtain ⟨key, property⟩ := entry
    have hHere : property.Allows (v.get key) := hAllows (key, property) (List.mem_cons_self ..)
    have hRest := ih (fun entry hEntry => hDefault entry (List.mem_cons_of_mem _ hEntry))
      (fun entry hEntry => hAllows entry (List.mem_cons_of_mem _ hEntry))
      (fun entry hEntry => hText entry (List.mem_cons_of_mem _ hEntry))
    rw [directFields_cons, inOrder, List.filterMap_cons]
    cases hAbsent : (v.get key).isUndefined with
    | true =>
      -- an absent property is never defined or else optional, and has no default
      have hField : directField .json key property v = [] := by
        have hNone : property.default = none := hDefault (key, property) (List.mem_cons_self ..)
        rw [Allows, hAbsent] at hHere
        rw [directField, hAbsent, hNone, Bool.and_true]
        split
        · rfl
        · next hDefined =>
          rw [if_neg hDefined] at hHere
          rcases hHere with hOptional | hThere
          · rw [hOptional]
            rfl
          · cases hThere
      rw [hField, List.nil_append, hRest]
      rfl
    | false =>
      have hDefined := hHere.defined hAbsent
      have hArranged := isUndefined_arranged property hAbsent
      have hValue := hText (key, property) (List.mem_cons_self ..) hDefined hAbsent
      have hField : directField .json key property v =
          [label key ++ property.direct .json (v.get key)] := by
        rw [directField, hDefined, hAbsent, Bool.and_false]
        rfl
      rw [hField, hRest, List.singleton_append, hValue, label, Json.literal_json]
      show _ = Value.entryTexts ((key, property.arranged (v.get key)) :: inOrder arranged rest v)
      rw [Value.entryTexts, hArranged, if_neg Bool.false_ne_true]

/-! ## Every node -/

/-- What is written for a value that fits is the text of the arranged
value. -/
theorem direct_eq_text_arranged (s : Schema) : s.Everywhere Plain → ∀ v : Value,
    s.Along Fits v → s.direct .json v = (s.arranged v).text := by
  -- the induction is over the parts of a node, which weigh less than the node does
  induction s using node_induction with
  | step s ih =>
    intro hPlain v hFits
    have hHere := hFits.here
    have hPart : ∀ part ∈ s.node.parts, part.Everywhere Plain :=
      fun part hPart => everywhere_part plain_mergeClosed hPlain hPart
    have hGuarded (text : String) (hText : guardHits s.node.guard v = false → text = v.text) :
        guardedText s.node.guard v text = v.text := guardedText_eq_text hPlain hText
    rw [direct_eq]
    rcases s.node_cases with hSilent | hLeaf | ⟨properties, guard, hNode⟩ | ⟨items, guard, hNode⟩
    · -- a node that writes nothing is undefined alone, which does not fit
      exact nomatch hHere.defined.symm.trans ((node_eq_silent_iff s).mp hSilent)
    · rw [arranged_leaf hLeaf, v.text_pruned, Node.direct_leaf hLeaf hHere.raw]
      exact hGuarded v.text fun _ => rfl
    · have hBelow (entry : String × Schema) (hEntry : entry ∈ properties) :=
        mem_parts_of_object hNode hEntry
      cases hHits : guardHits guard v with
      | true =>
        -- where the guard hits, `null` stands for a value without entries
        rw [arranged_of_hits hNode hHits, v.text_pruned]
        rw [hNode] at hGuarded ⊢
        exact hGuarded _ fun hMiss => nomatch hHits.symm.trans hMiss
      | false =>
        -- behind the guard the fields are written property by property
        obtain ⟨entries, -, -, hAllows⟩ := hHere.object hNode hHits
        rw [arranged_object hNode hHits, hNode, Node.direct, guardedText_of_not_hits hHits,
          Value.text]
        congr 1
        refine directFields_eq_entryTexts ?_ hAllows ?_
        · intro entry hEntry
          exact (hPart entry.2 (hBelow entry hEntry)).here
        · intro entry hEntry hDefined hThere
          refine ih entry.2 (hBelow entry hEntry) (hPart entry.2 (hBelow entry hEntry)) _ ?_
          exact hFits.property hNode hHits hEntry hDefined (by rw [hThere, Bool.and_false])
    · have hBelow := mem_parts_of_loop hNode
      cases hArray : v with
      | array entries =>
        rw [hArray] at hFits
        rw [arranged_loop hNode, hNode, Node.direct,
          guardedText_of_not_hits (guardHits_array ..), Value.joinedText, Value.text,
          Value.itemTexts_eq_map, List.map_map]
        congr 1
        refine List.map_congr_left fun entry hEntry => ?_
        exact ih items hBelow (hPart items hBelow) entry (hFits.item hNode hEntry)
      | _ =>
        -- what is no array is written by its generic text
        rw [← hArray, arranged_of_not_array hNode (by simp [hArray]), v.text_pruned]
        rw [hNode] at hGuarded ⊢
        refine hGuarded _ fun _ => joinedText_eq_text fun entries hEq => ?_
        rw [hArray] at hEq
        cases hEq

/-! ## The order of entries -/

section InOrder

variable {read : Schema → Value → Value} {properties : List (String × Schema)} {v : Value}

/-- The entries in order are those under declared keys that hold something. -/
theorem mem_inOrder {key : String} {value : Value} :
    (key, value) ∈ inOrder read properties v ↔
      ∃ property, (key, property) ∈ properties ∧ (v.get key).isUndefined = false ∧
        value = read property (v.get key) := by
  rw [inOrder, List.mem_filterMap]
  constructor
  · rintro ⟨⟨name, property⟩, hMem, hSome⟩
    split at hSome
    · cases hSome
    · next hThere =>
      cases hSome
      exact ⟨property, hMem, Bool.eq_false_iff.mpr hThere, rfl⟩
  · rintro ⟨property, hMem, hThere, rfl⟩
    refine ⟨(key, property), hMem, ?_⟩
    rw [hThere]
    rfl

/-- The keys come as they are declared, some of them left out. -/
theorem keys_inOrder_sublist :
    (Fields.keys (inOrder read properties v)).Sublist (Fields.keys properties) := by
  induction properties with
  | nil => exact List.Sublist.refl _
  | cons entry rest ih =>
    rw [inOrder, List.filterMap_cons]
    cases (v.get entry.1).isUndefined with
    | true => exact ih.cons _
    | false => exact ih.cons_cons _

end InOrder

/-- A value that fits an object has, in the order of declaration, the entries
that it has in its own. -/
theorem keys_inOrder_perm {read : Schema → Value → Value} {properties : List (String × Schema)}
    {entries : List (String × Value)} (hProperties : (Fields.keys properties).Nodup)
    (hEntries : (Fields.keys entries).Nodup)
    (hDeclared : ∀ entry ∈ entries, entry.2.isUndefined = false →
      entry.1 ∈ Fields.keys properties) :
    (Fields.keys (inOrder read properties (.object entries))).Perm
      (Fields.keys (Value.prunedEntries entries)) := by
  -- both lists are free of repetitions, so it is enough that they have the same keys
  refine (List.perm_ext_iff_of_nodup (hProperties.sublist keys_inOrder_sublist)
    (hEntries.sublist (Value.keys_prunedEntries_sublist entries))).mpr fun key => ?_
  constructor
  · -- a declared key with something under it is the key of an entry
    intro hKey
    obtain ⟨⟨name, value⟩, hMem, rfl⟩ := List.mem_map.mp hKey
    obtain ⟨property, -, hThere, -⟩ := mem_inOrder.mp hMem
    rcases (Value.object entries).get_cases name with hNone | ⟨found, hFound, hEntry⟩
    · rw [hNone] at hThere
      cases hThere
    · cases hFound
      exact List.mem_map.mpr ⟨_, Value.mem_prunedEntries.mpr ⟨_, hEntry, hThere, rfl⟩, rfl⟩
  · -- an entry that holds something has a declared key
    intro hKey
    obtain ⟨⟨name, value⟩, hMem, rfl⟩ := List.mem_map.mp hKey
    obtain ⟨found, hEntry, hThere, -⟩ := Value.mem_prunedEntries.mp hMem
    obtain ⟨⟨declared, property⟩, hProperty, rfl⟩ :=
      List.mem_map.mp (hDeclared _ hEntry hThere)
    have hGet := Value.get_of_mem hEntries hEntry
    exact List.mem_map.mpr ⟨_, mem_inOrder.mpr ⟨property, hProperty, by rw [hGet, hThere], rfl⟩,
      rfl⟩

/-- Arranging a value that fits changes the order of its entries alone. -/
theorem arranged_sameUpToOrder (s : Schema) : s.Everywhere KeysDistinct → ∀ v : Value,
    v.KeysDistinct → s.Along Fits v → (s.arranged v).SameUpToOrder v.pruned := by
  -- as for the text, over nodes; away from objects the two values are equal
  induction s using node_induction with
  | step s ih =>
    intro hKeys v hDistinct hFits
    have hPart : ∀ part ∈ s.node.parts, part.Everywhere KeysDistinct :=
      fun part hPart => everywhere_part keysDistinct_mergeClosed hKeys hPart
    rcases s.node_cases with hSilent | hLeaf | ⟨properties, guard, hNode⟩ | ⟨items, guard, hNode⟩
    · exact nomatch hFits.here.defined.symm.trans ((node_eq_silent_iff s).mp hSilent)
    · rw [arranged_leaf hLeaf]
      exact .refl _
    · cases hHits : guardHits guard v with
      | true =>
        rw [arranged_of_hits hNode hHits]
        exact .refl _
      | false =>
        obtain ⟨entries, rfl, hDeclared, hAllows⟩ := hFits.here.object hNode hHits
        obtain ⟨_, _, hObject⟩ := everywhere_object keysDistinct_mergeClosed hKeys hNode
        rw [arranged_object hNode hHits, Value.pruned]
        refine .object (keys_inOrder_perm hObject.here hDistinct.1 hDeclared) ?_
        intro key value other hValue hOther
        obtain ⟨property, hMem, hThere, rfl⟩ := mem_inOrder.mp hValue
        obtain ⟨found, hEntry, -, rfl⟩ := Value.mem_prunedEntries.mp hOther
        -- the entry is the one that is looked up, its keys being distinct
        have hGet := Value.get_of_mem hDistinct.1 hEntry
        have hBelow : property ∈ s.node.parts := mem_parts_of_object hNode hMem
        have hDefined := (hAllows (key, property) hMem).defined hThere
        rw [← hGet]
        refine ih property hBelow (hPart property hBelow) _ (hDistinct.get key) ?_
        exact hFits.property hNode hHits hMem hDefined (by rw [hThere, Bool.and_false])
    · have hBelow := mem_parts_of_loop hNode
      cases v with
      | array entries =>
        rw [arranged_loop hNode, Value.pruned, Value.prunedItems_eq_map]
        refine .array (by rw [List.length_map, List.length_map]) fun index hItem hOther => ?_
        rw [List.getElem_map, List.getElem_map]
        have hMem := List.getElem_mem (by rw [List.length_map] at hItem; exact hItem)
        exact ih items hBelow (hPart items hBelow) _ (hDistinct.item hMem) (hFits.item hNode hMem)
      | _ =>
        rw [arranged_of_not_array hNode (by simp)]
        exact .refl _

end Schema

/-! ## Encoders -/

/-- **Agreement with the generic text.** For a schema without defaults and a
value that fits it wherever the two meet, the encoder writes the generic text
of the arranged value: the value without undefined entries, and with entries
in the order of declaration wherever the schema describes an object. Keys
being distinct, the arranged value is the pruned one up to the order of
entries, and pruning does not show in the generic text. -/
theorem Encoder.encode_eq_text_arranged (s : Schema) (v : Value)
    (hPlain : s.Everywhere Schema.Plain) (hFits : s.Along Schema.Fits v) :
    (Encoder.ofSchema s .json).encode v = .ok (s.arranged v).text ∧
      (s.Everywhere Schema.KeysDistinct → v.KeysDistinct →
        (s.arranged v).SameUpToOrder v.pruned) ∧
      v.pruned.text = v.text := by
  refine ⟨?_, fun hKeys hDistinct => s.arranged_sameUpToOrder hKeys v hDistinct hFits,
    v.text_pruned⟩
  rw [Encoder.encode_eq_direct, s.direct_eq_text_arranged hPlain v hFits]

/-- An object with a number, a string that may be absent and a string. -/
def Schema.tagged : Schema :=
  .object [("id", .scalar .number {}), ("tag", .scalar (.string none) ⟨none, true⟩),
    ("name", .scalar (.string none) {})] [] false {}

/-- A value whose entries stand in another order, and whose tag is
undefined. -/
def Value.untagged : Value :=
  .object [("name", .string "a"), ("tag", .undefined), ("id", .number (.integer 7))]

/-- The entries come out in the order of declaration, and the tag is left
out. -/
theorem Encoder.encode_untagged :
    Schema.tagged.Everywhere Schema.Plain ∧ Schema.tagged.Along Schema.Fits Value.untagged ∧
      (Encoder.ofSchema Schema.tagged .json).encode Value.untagged =
        .ok (Value.object [("id", .number (.integer 7)), ("name", .string "a")]).text := by
  have hPlain : Schema.tagged.Everywhere Schema.Plain := by
    refine ⟨rfl, rfl, rfl, rfl, trivial⟩
  have hNode : Schema.tagged.node = .object [("id", .scalar .number {}),
      ("tag", .scalar (.string none) ⟨none, true⟩), ("name", .scalar (.string none) {})] none :=
    rfl
  -- the one entry without a value is the one whose property may be absent
  have hFits : Schema.tagged.Along Schema.Fits Value.untagged := by
    refine .ofObject ⟨rfl, trivial, ?_⟩ hNode ?_
    · intro properties guard hOther _
      cases hNode.symm.trans hOther
      exact ⟨_, rfl, by decide, by decide⟩
    · simp only [List.forall_mem_cons, List.not_mem_nil, false_implies, implies_true, and_true]
      refine ⟨fun _ _ => ?_, fun _ hPresent => ?_, fun _ _ => ?_⟩
      · exact .ofLeaf ⟨rfl, rfl, fun hOther => nomatch hOther⟩ rfl
      · cases hPresent
      · exact .ofLeaf ⟨rfl, trivial, fun hOther => nomatch hOther⟩ rfl
  -- the entries in the order of the properties, without the one that is missing
  have hArranged : Schema.tagged.arranged Value.untagged =
      .object [("id", .number (.integer 7)), ("name", .string "a")] := by
    rw [Schema.arranged_object hNode rfl]
    have hNumber : (Schema.scalar .number {}).arranged (.number (.integer 7)) =
        .number (.integer 7) := Schema.arranged_leaf rfl
    have hName : (Schema.scalar (.string none) {}).arranged (.string "a") = .string "a" :=
      Schema.arranged_leaf rfl
    show Value.object [("id", (Schema.scalar .number {}).arranged (.number (.integer 7))),
      ("name", (Schema.scalar (.string none) {}).arranged (.string "a"))] = _
    rw [hNumber, hName]
  have hEncode := (Encoder.encode_eq_text_arranged Schema.tagged Value.untagged hPlain hFits).1
  rw [hArranged] at hEncode
  exact ⟨hPlain, hFits, hEncode⟩

end JsonStencil
