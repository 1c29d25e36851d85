import JsonStencil.Proofs.Pruned
import JsonStencil.Proofs.ReadingBack
import JsonStencil.Proofs.Reloading
import Mathlib.Data.List.Perm.Subperm

/-!
# Equality up to the order of members

Two JSON values are equal up to the order of object members if the one is the
other with the members of its objects put into another order, at any depth.
For values that repeat no key the comparison that is computed, which looks
every member up on the other side, decides just that.

The relation between runtime values and the one between JSON values meet
where a runtime value is that of a JSON value: whatever is equal to it up to
order is that of a JSON value as well.

Main definitions:

* `Json.SameUpToOrder` — the relation.

Main results:

* `Json.same_iff` — what is computed.
* `Json.SameUpToOrder.readable` / `integersOnly` — what does not depend on
  the order of members.
* `Value.SameUpToOrder.exists_json` — from runtime values to JSON values.
-/

namespace JsonStencil

/-- Under a key on the one side there is something on the other. -/
theorem Fields.exists_mem_of_perm {α β : Type} {fields : List (String × α)}
    {others : List (String × β)} (h : (keys fields).Perm (keys others)) {key : String} {item : α}
    (hItem : (key, item) ∈ fields) : ∃ other, (key, other) ∈ others := by
  obtain ⟨⟨name, other⟩, hOther, rfl⟩ :=
    List.mem_map.mp (h.mem_iff.mp (List.mem_map_of_mem hItem))
  exact ⟨other, hOther⟩

namespace Json

/-- Equality up to the order of object members. -/
inductive SameUpToOrder : Json → Json → Prop where
  | null : SameUpToOrder .null .null
  | bool (value : Bool) : SameUpToOrder (.bool value) (.bool value)
  | number {m n : Number} (same : m.same n = true) : SameUpToOrder (.number m) (.number n)
  | string (value : String) : SameUpToOrder (.string value) (.string value)
  | array {items others : List Json} (length : items.length = others.length)
    (same : ∀ (index : Nat) (hItem : index < items.length) (hOther : index < others.length),
      SameUpToOrder items[index] others[index]) :
    SameUpToOrder (.array items) (.array others)
  | object {members others : List (String × Json)}
    (keys : (Fields.keys members).Perm (Fields.keys others))
    (same : ∀ (key : String) (value other : Json), (key, value) ∈ members →
      (key, other) ∈ others → SameUpToOrder value other) :
    SameUpToOrder (.object members) (.object others)

/-! ## What is computed -/

/-- Lists of items compare as the same place by place. -/
theorem sameItems_iff {items others : List Json} :
    sameItems items others = true ↔ items.length = others.length ∧
      ∀ (index : Nat) (hItem : index < items.length) (hOther : index < others.length),
        items[index].same others[index] = true := by
  -- by the items on one side; an index behind the first item is one of the rest
  induction items generalizing others with
  | nil => cases others <;> simp [sameItems]
  | cons item rest ih =>
    cases others with
    | nil => simp [sameItems]
    | cons other more =>
      rw [sameItems, Bool.and_eq_true, ih]
      constructor
      · rintro ⟨hFirst, hLength, hRest⟩
        refine ⟨congrArg (· + 1) hLength, fun index hItem hOther => ?_⟩
        cases index with
        | zero => exact hFirst
        | succ index =>
          exact hRest index (Nat.lt_of_succ_lt_succ hItem) (Nat.lt_of_succ_lt_succ hOther)
      · rintro ⟨hLength, hAll⟩
        exact ⟨hAll 0 (Nat.succ_pos _) (Nat.succ_pos _), Nat.succ.inj hLength,
          fun index hItem hOther =>
            hAll (index + 1) (Nat.succ_lt_succ hItem) (Nat.succ_lt_succ hOther)⟩

/-- Members compare as the same if each finds its like under its key. -/
theorem sameMembers_iff {members others : List (String × Json)} :
    sameMembers members others = true ↔
      ∀ entry ∈ members, ∃ other, others.lookup entry.1 = some other ∧
        entry.2.same other = true := by
  induction members with
  | nil => simp [sameMembers]
  | cons entry rest ih =>
    rw [sameMembers, Bool.and_eq_true, ih, List.forall_mem_cons]
    cases others.lookup entry.1 <;> simp

/-- Distinct keys of which each is among others as many are those in another
order. -/
theorem keys_perm {members others : List (String × Json)} (h : (Fields.keys members).Nodup)
    (hLength : members.length = others.length)
    (hFound : ∀ key ∈ Fields.keys members, key ∈ Fields.keys others) :
    (Fields.keys members).Perm (Fields.keys others) := by
  have hKeys : (Fields.keys others).length = (Fields.keys members).length := by
    rw [Fields.keys, Fields.keys, List.length_map, List.length_map, hLength]
  exact (List.subperm_of_subset h hFound).perm_of_length_le (Nat.le_of_eq hKeys)

/-- What is found under a key is a member. -/
theorem mem_of_lookup {key : String} {value : Json} {members : List (String × Json)}
    (h : members.lookup key = some value) : (key, value) ∈ members := by
  obtain ⟨before, after, rfl, -⟩ := List.lookup_eq_some_iff.mp h
  simp

mutual

/-- What compares as the same is the same up to the order of members. -/
theorem sameUpToOrder_of_same : ∀ (a : Json) {b : Json}, a.KeysDistinct → b.KeysDistinct →
    a.same b = true → a.SameUpToOrder b
  | .null, b, _, _, h => by
    cases b with
    | null => exact .null
    | _ => cases h
  | .bool value, b, _, _, h => by
    cases b with
    | bool other =>
      obtain rfl : value = other := eq_of_beq h
      exact .bool value
    | _ => cases h
  | .number n, b, _, _, h => by
    cases b with
    | number other => exact .number h
    | _ => cases h
  | .string value, b, _, _, h => by
    cases b with
    | string other =>
      obtain rfl : value = other := eq_of_beq h
      exact .string value
    | _ => cases h
  | .array items, b, ha, hb, h => by
    cases b with
    | array others =>
      rw [KeysDistinct, mem_keysDistinctInItems] at ha hb
      rw [Json.same, sameItems_iff] at h
      exact .array h.1 fun index hItem hOther => sameUpToOrder_of_same_items items _
        (List.getElem_mem hItem) (ha _ (List.getElem_mem hItem)) (hb _ (List.getElem_mem hOther))
        (h.2 index hItem hOther)
    | _ => cases h
  -- the comparison goes through the members of one side; as many on the other side, all
  -- with distinct keys, leave none over
  | .object members, b, ha, hb, h => by
    cases b with
    | object others =>
      rw [KeysDistinct, mem_keysDistinctInMembers] at ha hb
      rw [Json.same, Bool.and_eq_true, sameMembers_iff] at h
      obtain ⟨hLength, hFound⟩ := h
      refine .object (keys_perm ha.1 (eq_of_beq hLength) fun key hKey => ?_)
        fun key value other hValue hOther => ?_
      · obtain ⟨entry, hEntry, rfl⟩ := List.mem_map.mp hKey
        obtain ⟨other, hLookup, -⟩ := hFound entry hEntry
        exact List.mem_map.mpr ⟨_, mem_of_lookup hLookup, rfl⟩
      · obtain ⟨found, hLookup, hSame⟩ := hFound _ hValue
        -- what was found under the key is the member that is meant
        rw [Fields.lookup_of_mem hb.1 hOther] at hLookup
        cases hLookup
        exact sameUpToOrder_of_same_members members _ hValue (ha.2 _ hValue) (hb.2 _ hOther) hSame
    | _ => cases h

/-- For the items of an array, one of which is at hand. -/
theorem sameUpToOrder_of_same_items : ∀ items : List Json, ∀ item ∈ items, ∀ {b : Json},
    item.KeysDistinct → b.KeysDistinct → item.same b = true → item.SameUpToOrder b
  | [] => nofun
  | item :: rest =>
    List.forall_mem_cons.mpr ⟨sameUpToOrder_of_same item, sameUpToOrder_of_same_items rest⟩

/-- For the members of an object, one of which is at hand. -/
theorem sameUpToOrder_of_same_members : ∀ members : List (String × Json),
    ∀ entry ∈ members, ∀ {b : Json}, entry.2.KeysDistinct → b.KeysDistinct →
      entry.2.same b = true → entry.2.SameUpToOrder b
  | [] => nofun
  | (_, value) :: rest =>
    List.forall_mem_cons.mpr ⟨sameUpToOrder_of_same value, sameUpToOrder_of_same_members rest⟩

end

/-- The comparison decides equality up to the order of members. -/
theorem same_iff {a b : Json} (ha : a.KeysDistinct) (hb : b.KeysDistinct) :
    a.same b = true ↔ a.SameUpToOrder b := by
  refine ⟨sameUpToOrder_of_same a ha hb, fun h => ?_⟩
  -- the other way round the relation is taken apart
  induction h with
  | null => rfl
  | bool value => exact beq_self_eq_true value
  | number same => exact same
  | string value => exact beq_self_eq_true value
  | array length _ ih =>
    rw [KeysDistinct, mem_keysDistinctInItems] at ha hb
    rw [Json.same, sameItems_iff]
    exact ⟨length, fun index hItem hOther => ih index hItem hOther
      (ha _ (List.getElem_mem hItem)) (hb _ (List.getElem_mem hOther))⟩
  | @object members others keys _ ih =>
    rw [KeysDistinct, mem_keysDistinctInMembers] at ha hb
    have hLength : members.length = others.length := by
      simpa [Fields.keys] using keys.length_eq
    rw [Json.same, hLength, beq_self_eq_true, Bool.true_and, sameMembers_iff]
    intro entry hEntry
    obtain ⟨other, hOther⟩ := Fields.exists_mem_of_perm keys hEntry
    exact ⟨other, Fields.lookup_of_mem hb.1 hOther,
      ih _ _ _ hEntry hOther (ha.2 _ hEntry) (hb.2 _ hOther)⟩

/-! ## What does not depend on the order -/

/-- A list of items has integers only if each item has. -/
theorem integersOnlyInItems_iff {items : List Json} :
    IntegersOnlyInItems items ↔ ∀ item ∈ items, item.IntegersOnly := by
  induction items with
  | nil => simp [IntegersOnlyInItems]
  | cons item rest ih => simp [IntegersOnlyInItems, ih]

/-- A list of members has integers only if each value has. -/
theorem integersOnlyInMembers_iff {members : List (String × Json)} :
    IntegersOnlyInMembers members ↔ ∀ entry ∈ members, entry.2.IntegersOnly := by
  induction members with
  | nil => simp [IntegersOnlyInMembers]
  | cons entry rest ih => simp [IntegersOnlyInMembers, ih]

namespace SameUpToOrder

/-- Among distinct keys a value is the same as itself. -/
theorem refl {j : Json} (h : j.KeysDistinct) : j.SameUpToOrder j :=
  (same_iff h h).mp (j.same_self h)

/-- The order of members is of no account for distinct keys. -/
theorem keysDistinct {a b : Json} (h : a.SameUpToOrder b) (hb : b.KeysDistinct) :
    a.KeysDistinct := by
  induction h with
  | array length _ ih =>
    rw [KeysDistinct, mem_keysDistinctInItems] at hb ⊢
    intro item hItem
    obtain ⟨index, hIndex, rfl⟩ := List.getElem_of_mem hItem
    exact ih index hIndex (by omega) (hb _ (List.getElem_mem (by omega)))
  | @object members others keys _ ih =>
    rw [KeysDistinct, mem_keysDistinctInMembers] at hb ⊢
    refine ⟨keys.nodup_iff.mpr hb.1, fun entry hEntry => ?_⟩
    obtain ⟨other, hOther⟩ := Fields.exists_mem_of_perm keys hEntry
    exact ih _ _ _ hEntry hOther (hb.2 _ hOther)
  | _ => trivial

/-- Nor is it for the depth. -/
theorem depth_le {a b : Json} (h : a.SameUpToOrder b) : a.depth ≤ b.depth := by
  induction h with
  | array length _ ih =>
    refine Nat.succ_le_succ (depthOfItems_le_iff.mpr fun item hItem => ?_)
    obtain ⟨index, hIndex, rfl⟩ := List.getElem_of_mem hItem
    exact Nat.le_trans (ih index hIndex (by omega))
      (depthOfItems_le_iff.mp (Nat.le_refl _) _ (List.getElem_mem (by omega)))
  | object keys _ ih =>
    refine Nat.succ_le_succ (depthOfMembers_le_iff.mpr fun entry hEntry => ?_)
    obtain ⟨other, hOther⟩ := Fields.exists_mem_of_perm keys hEntry
    exact Nat.le_trans (ih _ _ _ hEntry hOther)
      (depthOfMembers_le_iff.mp (Nat.le_refl _) _ hOther)
  | _ => exact Nat.le_refl _

/-- Whether a value can be read does not depend on the order of members. -/
theorem readable {a b : Json} (h : a.SameUpToOrder b) (hb : b.Readable) : a.Readable :=
  ⟨Nat.le_trans h.depth_le hb.depth, h.keysDistinct hb.keys⟩

/-- Nor does it matter for the numbers of a value. -/
theorem integersOnly {a b : Json} (h : a.SameUpToOrder b) (hb : b.IntegersOnly) :
    a.IntegersOnly := by
  induction h with
  | @number m n same =>
    -- numbers that are the same are both integers or both are not
    cases n with
    | float value => exact hb.elim
    | integer value =>
      cases m with
      | float other => cases same
      | integer other =>
        obtain rfl : other = value := eq_of_beq same
        exact hb
  | array length _ ih =>
    rw [IntegersOnly, integersOnlyInItems_iff] at hb ⊢
    intro item hItem
    obtain ⟨index, hIndex, rfl⟩ := List.getElem_of_mem hItem
    exact ih index hIndex (by omega) (hb _ (List.getElem_mem (by omega)))
  | object keys _ ih =>
    rw [IntegersOnly, integersOnlyInMembers_iff] at hb ⊢
    intro entry hEntry
    obtain ⟨other, hOther⟩ := Fields.exists_mem_of_perm keys hEntry
    exact ih _ _ _ hEntry hOther (hb _ hOther)
  | _ => trivial

end SameUpToOrder

end Json

/-! ## Runtime values -/

namespace Value

/-- The value of an array has the values of its items. -/
theorem ofItems_eq_map (items : List Json) : ofItems items = items.map ofJson := by
  induction items with
  | nil => rfl
  | cons item rest ih => rw [ofItems, ih, List.map_cons]

/-- The value of an object has the values of its members. -/
theorem ofMembers_eq_map (members : List (String × Json)) :
    ofMembers members = members.map fun entry => (entry.1, ofJson entry.2) := by
  induction members with
  | nil => rfl
  | cons entry rest ih => rw [ofMembers, ih, List.map_cons]

theorem keys_ofMembers (members : List (String × Json)) :
    Fields.keys (ofMembers members) = Fields.keys members := by
  rw [ofMembers_eq_map, Fields.keys, List.map_map]
  rfl

mutual

/-- A value of a JSON value has its text. -/
theorem text_ofJson : ∀ j : Json, (ofJson j).text = j.text
  | .null | .bool true | .bool false | .number _ | .string _ => rfl
  | .array items => by rw [ofJson, text, Json.text, itemTexts_ofItems items]
  | .object members => by rw [ofJson, text, Json.text, entryTexts_ofMembers members]

/-- So have all items. -/
theorem itemTexts_ofItems : ∀ items : List Json, itemTexts (ofItems items) = Json.itemTexts items
  | [] => rfl
  | item :: rest => by
    rw [ofItems, itemTexts, Json.itemTexts, text_ofJson item, itemTexts_ofItems rest]

/-- And all members, none of which is left out. -/
theorem entryTexts_ofMembers : ∀ members : List (String × Json),
    entryTexts (ofMembers members) = Json.memberTexts members
  | [] => rfl
  | (key, value) :: rest => by
    have hThere : (ofJson value).isUndefined = false := by cases value <;> rfl
    rw [ofMembers, entryTexts, hThere, if_neg Bool.false_ne_true, Json.memberTexts,
      text_ofJson value, entryTexts_ofMembers rest]

end

/-- A JSON value stands for something. -/
theorem isUndefined_ofJson (j : Json) : (ofJson j).isUndefined = false := by
  cases j <;> rfl

mutual

/-- Nothing in a value of a JSON value is undefined. -/
theorem pruned_ofJson : ∀ j : Json, (ofJson j).pruned = ofJson j
  | .null | .bool _ | .number _ | .string _ => rfl
  | .array items => by rw [ofJson, pruned, prunedItems_ofItems items]
  | .object members => by rw [ofJson, pruned, prunedEntries_ofMembers members]

/-- Nor in its items. -/
theorem prunedItems_ofItems : ∀ items : List Json, prunedItems (ofItems items) = ofItems items
  | [] => rfl
  | item :: rest => by
    rw [ofItems, prunedItems, pruned_ofJson item, prunedItems_ofItems rest]

/-- Nor in its members. -/
theorem prunedEntries_ofMembers : ∀ members : List (String × Json),
    prunedEntries (ofMembers members) = ofMembers members
  | [] => rfl
  | (key, value) :: rest => by
    rw [ofMembers, prunedEntries, isUndefined_ofJson, if_neg Bool.false_ne_true,
      pruned_ofJson value, prunedEntries_ofMembers rest]

end

mutual

/-- Distinct keys stay distinct in the value. -/
theorem keysDistinct_ofJson : ∀ j : Json, j.KeysDistinct → (ofJson j).KeysDistinct
  | .null, _ | .bool _, _ | .number _, _ | .string _, _ => trivial
  | .array items, h => keysDistinct_ofItems items h
  | .object members, h =>
    ⟨by rw [keys_ofMembers]; exact h.1, keysDistinct_ofMembers members h.2⟩

theorem keysDistinct_ofItems : ∀ items : List Json, Json.KeysDistinctInItems items →
    KeysDistinctInItems (ofItems items)
  | [], _ => trivial
  | item :: rest, h => ⟨keysDistinct_ofJson item h.1, keysDistinct_ofItems rest h.2⟩

theorem keysDistinct_ofMembers : ∀ members : List (String × Json),
    Json.KeysDistinctInMembers members → KeysDistinctInEntries (ofMembers members)
  | [], _ => trivial
  | (_, value) :: rest, h => ⟨keysDistinct_ofJson value h.1, keysDistinct_ofMembers rest h.2⟩

end

/-- What is equal up to order to the value of a JSON value is the value of
one that is equal to it up to order. -/
theorem SameUpToOrder.exists_json {w v : Value} (h : w.SameUpToOrder v) :
    ∀ j : Json, v = ofJson j → j.KeysDistinct →
      ∃ other, w = ofJson other ∧ other.SameUpToOrder j := by
  -- the JSON value is built along the relation: from the items by their places, from the
  -- members by their keys
  induction h with
  | refl v => exact fun j hj hKeys => ⟨j, hj, .refl hKeys⟩
  | @array items others length _ ih =>
    intro j hj hKeys
    cases j with
    | array found =>
      cases hj
      rw [Json.KeysDistinct, Json.mem_keysDistinctInItems] at hKeys
      have hFound : items.length = found.length := by
        rw [length, ofItems_eq_map, List.length_map]
      have hEach (index : Fin items.length) : ∃ other, items[index] = ofJson other ∧
          ∀ _ : index.1 < found.length, other.SameUpToOrder found[index.1] := by
        have hBound : index.1 < found.length := hFound ▸ index.2
        obtain ⟨other, hOther, hSame⟩ := ih index index.2 (by omega) found[index.1]
          (by simp only [ofItems_eq_map, List.getElem_map]) (hKeys _ (List.getElem_mem hBound))
        exact ⟨other, hOther, fun _ => hSame⟩
      -- a JSON value is chosen for every item, and they make an array
      choose other hOther hSame using hEach
      refine ⟨.array (List.ofFn other), ?_, .array (by simp [hFound]) fun index _ _ => ?_⟩
      · rw [ofJson, ofItems_eq_map]
        refine congrArg Value.array (List.ext_getElem (by simp) fun index hItem _ => ?_)
        rw [List.getElem_map, List.getElem_ofFn]
        exact hOther ⟨index, hItem⟩
      · rw [List.getElem_ofFn]
        exact hSame ⟨index, by omega⟩ _
    | _ => cases hj
  | @object entries others keys _ ih =>
    intro j hj hKeys
    cases j with
    | object found =>
      cases hj
      rw [Json.KeysDistinct, Json.mem_keysDistinctInMembers] at hKeys
      have hEach (entry : {entry // entry ∈ entries}) : ∃ other, entry.1.2 = ofJson other ∧
          ∀ value, (entry.1.1, value) ∈ found → other.SameUpToOrder value := by
        obtain ⟨_, hMember⟩ := Fields.exists_mem_of_perm keys entry.2
        have hMembers := hMember
        rw [ofMembers_eq_map] at hMembers
        obtain ⟨⟨key, value⟩, hValue, hEq⟩ := List.mem_map.mp hMembers
        cases hEq
        obtain ⟨other, hOther, hSame⟩ :=
          ih _ _ _ entry.2 hMember value rfl (hKeys.2 _ hValue)
        refine ⟨other, hOther, fun again hAgain => ?_⟩
        -- among distinct keys there is but one value
        cases Fields.eq_of_key_eq hKeys.1 hValue hAgain rfl
        exact hSame
      -- the members come in the order of the entries
      choose other hOther hSame using hEach
      have hEntries :
          entries = ofMembers (entries.attach.map fun entry => (entry.1.1, other entry)) := by
        have hEach : (fun member : String × Json => (member.1, ofJson member.2)) ∘
            (fun entry : {entry // entry ∈ entries} => (entry.1.1, other entry)) = Subtype.val :=
          funext fun entry => Prod.ext rfl (hOther entry).symm
        rw [ofMembers_eq_map, List.map_map, hEach, List.attach_map_subtype_val]
      refine ⟨.object (entries.attach.map fun entry => (entry.1.1, other entry)),
        congrArg Value.object hEntries, .object ?_ ?_⟩
      · rw [← keys_ofMembers, ← hEntries, ← keys_ofMembers found]
        exact keys
      · intro key value again hValue hAgain
        obtain ⟨entry, -, hEq⟩ := List.mem_map.mp hValue
        cases hEq
        exact hSame entry again hAgain
    | _ => cases hj

end Value

end JsonStencil
