import JsonStencil.Proofs.OrderedFields
import JsonStencil.Value

/-!
# Values up to their entries

The generic text passes over entries that hold undefined, so a value may be
cut back to the entries that are written without a change to its text. Two
values that differ in the order of their entries alone have texts that differ
in the order of members alone.

Main definitions:

* `Value.pruned` — a value without undefined entries, at every depth.
* `Value.KeysDistinct` — no object repeats a key, at any depth.
* `Value.SameUpToOrder` — equality up to the order of entries.

Main results:

* `text_pruned` — pruning leaves the generic text as it is.
-/

namespace JsonStencil.Value

/-! ## Pruning -/

mutual

/-- The value without the entries that hold undefined. -/
def pruned : Value → Value
  | .array items => .array (prunedItems items)
  | .object entries => .object (prunedEntries entries)
  | other => other

/-- Item by item; an undefined item keeps its place. -/
def prunedItems : List Value → List Value
  | [] => []
  | item :: rest => pruned item :: prunedItems rest

/-- The entries that do not hold undefined. -/
def prunedEntries : List (String × Value) → List (String × Value)
  | [] => []
  | (key, value) :: rest =>
    if value.isUndefined then prunedEntries rest else (key, pruned value) :: prunedEntries rest

end

/-- Pruning leaves undefined as it is and makes nothing undefined. -/
theorem isUndefined_pruned (v : Value) : v.pruned.isUndefined = v.isUndefined := by
  cases v <;> rw [pruned] <;> first | rfl | (intros; contradiction)

/-- Items are pruned one by one. -/
theorem prunedItems_eq_map (items : List Value) : prunedItems items = items.map pruned := by
  induction items with
  | nil => rw [prunedItems, List.map_nil]
  | cons item rest ih => rw [prunedItems, ih, List.map_cons]

/-- The entries left are those not undefined, pruned. -/
theorem mem_prunedEntries {key : String} {value : Value} {entries : List (String × Value)} :
    (key, value) ∈ prunedEntries entries ↔
      ∃ v, (key, v) ∈ entries ∧ v.isUndefined = false ∧ value = v.pruned := by
  induction entries with
  | nil => simp [prunedEntries]
  | cons entry rest ih =>
    obtain ⟨name, first⟩ := entry
    rw [prunedEntries]
    -- the first entry is dropped or kept
    cases hFirst : first.isUndefined with
    | true =>
      rw [if_pos rfl, ih]
      constructor
      · rintro ⟨v, hMem, hDefined, hValue⟩
        exact ⟨v, List.mem_cons_of_mem _ hMem, hDefined, hValue⟩
      · rintro ⟨v, hMem, hDefined, hValue⟩
        -- the entry that is dropped holds undefined
        rcases List.mem_cons.mp hMem with hEq | hRest
        · cases hEq
          rw [hFirst] at hDefined
          cases hDefined
        · exact ⟨v, hRest, hDefined, hValue⟩
    | false =>
      rw [if_neg Bool.false_ne_true, List.mem_cons, ih]
      constructor
      · rintro (hEq | ⟨v, hMem, hDefined, hValue⟩)
        · cases hEq
          exact ⟨first, List.mem_cons_self .., hFirst, rfl⟩
        · exact ⟨v, List.mem_cons_of_mem _ hMem, hDefined, hValue⟩
      · rintro ⟨v, hMem, hDefined, hValue⟩
        rcases List.mem_cons.mp hMem with hEq | hRest
        · cases hEq
          exact Or.inl (by rw [hValue])
        · exact Or.inr ⟨v, hRest, hDefined, hValue⟩

/-- The keys left come in the order in which they came. -/
theorem keys_prunedEntries_sublist (entries : List (String × Value)) :
    (Fields.keys (prunedEntries entries)).Sublist (Fields.keys entries) := by
  induction entries with
  | nil =>
    have hNil : prunedEntries [] = [] := by rw [prunedEntries]
    exact hNil ▸ List.Sublist.refl _
  | cons entry rest ih =>
    obtain ⟨name, first⟩ := entry
    rw [prunedEntries]
    split
    · exact ih.cons _
    · exact ih.cons_cons _

mutual

/-- Pruning leaves the generic text as it is. -/
theorem text_pruned : ∀ v : Value, v.pruned.text = v.text
  | .undefined | .null | .bool _ | .number _ | .bigint _ | .string _ | .instant _ => by
    rw [pruned] <;> (intros; contradiction)
  | .array items => by rw [pruned, text, text, itemTexts_pruned items]
  | .object entries => by rw [pruned, text, text, entryTexts_pruned entries]

theorem itemTexts_pruned : ∀ items : List Value, itemTexts (prunedItems items) = itemTexts items
  | [] => by rw [prunedItems]
  | item :: rest => by
    rw [prunedItems, itemTexts, itemTexts, text_pruned item, itemTexts_pruned rest]

/-- Entry by entry; an entry that is dropped had no text. -/
theorem entryTexts_pruned : ∀ entries : List (String × Value),
    entryTexts (prunedEntries entries) = entryTexts entries
  | [] => by rw [prunedEntries]
  | (key, value) :: rest => by
    rw [prunedEntries, entryTexts]
    cases hValue : value.isUndefined with
    | true => exact entryTexts_pruned rest
    | false =>
      simp only [Bool.false_eq_true, if_false]
      rw [entryTexts, isUndefined_pruned, hValue, if_neg Bool.false_ne_true, text_pruned value,
        entryTexts_pruned rest]

end

/-- The texts of items are those of each of them. -/
theorem itemTexts_eq_map (items : List Value) : itemTexts items = items.map text := by
  induction items with
  | nil => rw [itemTexts, List.map_nil]
  | cons item rest ih => rw [itemTexts, ih, List.map_cons]

/-! ## Distinct keys -/

mutual

/-- No object repeats a key. -/
def KeysDistinct : Value → Prop
  | .array items => KeysDistinctInItems items
  | .object entries => (Fields.keys entries).Nodup ∧ KeysDistinctInEntries entries
  | _ => True

/-- Nor in any item. -/
def KeysDistinctInItems : List Value → Prop
  | [] => True
  | item :: rest => KeysDistinct item ∧ KeysDistinctInItems rest

/-- Nor in any entry. -/
def KeysDistinctInEntries : List (String × Value) → Prop
  | [] => True
  | (_, value) :: rest => KeysDistinct value ∧ KeysDistinctInEntries rest

end

/-- In an array no object repeats a key if none does in an item. -/
theorem keysDistinct_array_iff {items : List Value} :
    (Value.array items).KeysDistinct ↔ ∀ item ∈ items, item.KeysDistinct := by
  rw [KeysDistinct]
  induction items with
  | nil => simp [KeysDistinctInItems]
  | cons item rest ih => simp [KeysDistinctInItems, ih]

/-- Entry by entry. -/
theorem keysDistinctInEntries_iff {entries : List (String × Value)} :
    KeysDistinctInEntries entries ↔ ∀ entry ∈ entries, entry.2.KeysDistinct := by
  induction entries with
  | nil => simp [KeysDistinctInEntries]
  | cons entry rest ih => simp [KeysDistinctInEntries, ih]

/-- An object has distinct keys, and so do its entries. -/
theorem keysDistinct_object_iff {entries : List (String × Value)} :
    (Value.object entries).KeysDistinct ↔
      (Fields.keys entries).Nodup ∧ ∀ entry ∈ entries, entry.2.KeysDistinct := by
  rw [KeysDistinct, keysDistinctInEntries_iff]

/-- What holds of an array holds of its items. -/
theorem KeysDistinct.item {items : List Value} (h : (Value.array items).KeysDistinct) {item : Value}
    (hItem : item ∈ items) : item.KeysDistinct :=
  keysDistinct_array_iff.mp h item hItem

/-- What holds of an object holds of its entries. -/
theorem KeysDistinct.entry {entries : List (String × Value)}
    (h : (Value.object entries).KeysDistinct) {entry : String × Value} (hEntry : entry ∈ entries) :
    entry.2.KeysDistinct :=
  (keysDistinct_object_iff.mp h).2 entry hEntry

/-- A key is looked up among the entries. -/
theorem get_cases (v : Value) (key : String) :
    v.get key = .undefined ∨ ∃ entries, v = .object entries ∧ (key, v.get key) ∈ entries := by
  cases v with
  | object entries =>
    cases hLookup : entries.lookup key with
    | none => exact Or.inl (by rw [get, hLookup]; rfl)
    | some found =>
      refine Or.inr ⟨entries, rfl, ?_⟩
      obtain ⟨before, after, hEntries, -⟩ := List.lookup_eq_some_iff.mp hLookup
      rw [get, hLookup, hEntries]
      simp
  | _ => exact Or.inl rfl

/-- What is found under a key repeats none, be it undefined. -/
theorem KeysDistinct.get {v : Value} (h : v.KeysDistinct) (key : String) :
    (v.get key).KeysDistinct := by
  rcases v.get_cases key with hNone | ⟨entries, rfl, hEntry⟩
  · rw [hNone, KeysDistinct]
    trivial
    all_goals (intros; contradiction)
  · exact h.entry hEntry

/-- Among distinct keys every entry is the one that is looked up. -/
theorem get_of_mem {entries : List (String × Value)} (hKeys : (Fields.keys entries).Nodup)
    {key : String} {value : Value} (h : (key, value) ∈ entries) :
    (Value.object entries).get key = value := by
  have hLookup : entries.lookup key = some value := Fields.lookup_of_mem hKeys h
  rw [get, hLookup]
  rfl

/-! ## The order of entries -/

/-- Equality up to the order of entries: objects have the same keys, and the
same values under them. -/
inductive SameUpToOrder : Value → Value → Prop where
  | refl (v : Value) : SameUpToOrder v v
  | array {items others : List Value} (length : items.length = others.length)
    (same : ∀ (index : Nat) (hItem : index < items.length) (hOther : index < others.length),
      SameUpToOrder items[index] others[index]) :
    SameUpToOrder (.array items) (.array others)
  | object {entries others : List (String × Value)}
    (keys : (Fields.keys entries).Perm (Fields.keys others))
    (same : ∀ (key : String) (value other : Value), (key, value) ∈ entries →
      (key, other) ∈ others → SameUpToOrder value other) :
    SameUpToOrder (.object entries) (.object others)

end JsonStencil.Value
