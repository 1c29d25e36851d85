import JsonStencil.Fields

/-!
# Putting fields

What is known of ordered fields after some items have been put: which names
there are and in which order, and what is found under them. The names stay
distinct whatever is put. Of the items put under a name the last one counts,
and the name stands where it first appeared. Fields that were put together
before can be put item by item instead.

Main results:

* `nodup_keys_putAll` — the names stay distinct.
* `keys_putAll` / `lookup_putAll` — the names and the items after some puts.
* `putAll_putAll` — putting what was put together before.
-/

namespace JsonStencil.Fields

variable {α : Type}

/-! ## Distinct names -/

/-- Putting one item keeps the names distinct. -/
theorem nodup_keys_put {fields : List (String × α)} (h : (keys fields).Nodup) (key : String)
    (item : α) : (keys (put key item fields)).Nodup := by
  rw [keys_put]
  -- a name that is there keeps its place, and a new one comes last
  split
  · exact h
  · next hNew =>
    refine List.nodup_append.mpr ⟨h, List.nodup_cons.mpr ⟨List.not_mem_nil, List.nodup_nil⟩, ?_⟩
    intro other hOther single hSingle
    rw [List.mem_singleton.mp hSingle]
    rintro rfl
    exact hNew hOther

/-- Whatever is put, the keys stay distinct. -/
theorem nodup_keys_putAll (pairs : List (String × α)) {fields : List (String × α)}
    (h : (keys fields).Nodup) : (keys (putAll fields pairs)).Nodup := by
  induction pairs generalizing fields with
  | nil => exact h
  | cons pair rest ih => exact ih (nodup_keys_put h pair.1 pair.2)

/-- Every item after one put was there before, or is the one that was put. -/
theorem mem_put {entry : String × α} {key : String} {item : α} {fields : List (String × α)}
    (h : entry ∈ put key item fields) : entry = (key, item) ∨ entry ∈ fields := by
  induction fields with
  | nil => exact Or.inl (List.mem_singleton.mp h)
  | cons first rest ih =>
    rw [put] at h
    split at h
    · rcases List.mem_cons.mp h with rfl | hRest
      · exact Or.inl rfl
      · exact Or.inr (List.mem_cons_of_mem _ hRest)
    · rcases List.mem_cons.mp h with rfl | hRest
      · exact Or.inr (List.mem_cons_self ..)
      · exact (ih hRest).imp_right (List.mem_cons_of_mem _)

/-- Every item after some puts was there before or has been put. -/
theorem mem_putAll {entry : String × α} {pairs fields : List (String × α)}
    (h : entry ∈ putAll fields pairs) : entry ∈ pairs ∨ entry ∈ fields := by
  induction pairs generalizing fields with
  | nil => exact Or.inr h
  | cons pair rest ih =>
    rcases ih h with hRest | hPut
    · exact Or.inl (List.mem_cons_of_mem _ hRest)
    · rcases mem_put hPut with rfl | hOld
      · exact Or.inl (List.mem_cons_self ..)
      · exact Or.inr hOld

/-- Among distinct keys every item is the one that is looked up. -/
theorem lookup_of_mem {fields : List (String × α)} (hKeys : (keys fields).Nodup)
    {entry : String × α} (h : entry ∈ fields) : fields.lookup entry.1 = some entry.2 := by
  induction fields with
  | nil => exact absurd h List.not_mem_nil
  | cons first rest ih =>
    obtain ⟨hNew, hRestKeys⟩ := List.nodup_cons.mp hKeys
    rcases List.mem_cons.mp h with rfl | hRest
    · exact List.lookup_cons_self
    · -- no name comes twice, so the entry is not hidden by the first one
      have hOther : (entry.1 == first.1) = false := by
        refine beq_eq_false_iff_ne.mpr fun hEq => hNew ?_
        rw [← hEq]
        exact List.mem_map_of_mem hRest
      rw [List.lookup_cons, hOther]
      exact ih hRestKeys hRest

/-- Among distinct keys an entry is known by its key. -/
theorem eq_of_key_eq {fields : List (String × α)} (hKeys : (keys fields).Nodup)
    {entry other : String × α} (h : entry ∈ fields) (hOther : other ∈ fields)
    (hKey : entry.1 = other.1) : entry = other := by
  have hItem := lookup_of_mem hKeys h
  rw [hKey, lookup_of_mem hKeys hOther] at hItem
  exact Prod.ext hKey (Option.some.inj hItem).symm

/-- Under a name that is not there nothing is found. -/
theorem lookup_of_not_mem {key : String} {fields : List (String × α)} (h : key ∉ keys fields) :
    fields.lookup key = none := by
  refine List.lookup_eq_none_iff.mpr fun entry hEntry => bne_iff_ne.mpr fun hSame => h ?_
  rw [hSame]
  exact List.mem_map_of_mem hEntry

/-- The order of distinct names does not matter to a lookup. -/
theorem lookup_perm {fields others : List (String × α)} (hKeys : (keys fields).Nodup)
    (hOrder : fields.Perm others) (key : String) : fields.lookup key = others.lookup key := by
  have hNames : (keys fields).Perm (keys others) := hOrder.map Prod.fst
  -- a name is among both or among neither
  by_cases hKey : key ∈ keys fields
  · obtain ⟨entry, hEntry, rfl⟩ := List.mem_map.mp hKey
    rw [lookup_of_mem hKeys hEntry, lookup_of_mem (hNames.nodup hKeys) (hOrder.mem_iff.mp hEntry)]
  · rw [lookup_of_not_mem hKey, lookup_of_not_mem fun hOther => hKey (hNames.mem_iff.mpr hOther)]

/-- Fields under distinct names are known by their names and by what is looked
up under them. -/
theorem eq_of_lookup {fields others : List (String × α)} (hDistinct : (keys fields).Nodup)
    (hKeys : keys fields = keys others)
    (hLookup : ∀ key, fields.lookup key = others.lookup key) : fields = others := by
  induction fields generalizing others with
  | nil =>
    cases others with
    | nil => rfl
    | cons other more => cases hKeys
  | cons entry rest ih =>
    cases others with
    | nil => cases hKeys
    | cons other more =>
      obtain ⟨hKey, hRestKeys⟩ : entry.1 = other.1 ∧ keys rest = keys more :=
        List.cons.inj hKeys
      obtain ⟨hNew, hRest⟩ := List.nodup_cons.mp hDistinct
      have hItem := hLookup entry.1
      rw [List.lookup_cons_self, hKey, List.lookup_cons_self] at hItem
      have hFirst : entry = other := Prod.ext hKey (Option.some.inj hItem)
      subst hFirst
      refine congrArg (entry :: ·) (ih hRest hRestKeys fun key => ?_)
      by_cases hSame : key = entry.1
      · -- the first name is looked up in vain in both remainders
        have hLeft : key ∉ keys rest := hSame ▸ hNew
        have hRight : key ∉ keys more := fun hMem => hLeft (hRestKeys.symm ▸ hMem)
        rw [lookup_of_not_mem hLeft, lookup_of_not_mem hRight]
      · have hLater := hLookup key
        have hOther : (key == entry.1) = false := beq_eq_false_iff_ne.mpr hSame
        rw [List.lookup_cons, List.lookup_cons, hOther] at hLater
        exact hLater

/-! ## Names and items after some puts -/

/-- Putting fields keeps the keys that are there and adds those put. -/
theorem mem_keys_putAll {key : String} {pairs fields : List (String × α)} :
    key ∈ keys (putAll fields pairs) ↔ key ∈ keys fields ∨ key ∈ keys pairs := by
  induction pairs generalizing fields with
  | nil => simp [putAll, keys]
  | cons pair rest ih =>
    show key ∈ keys (putAll (put pair.1 pair.2 fields) rest) ↔ _
    rw [ih, keys_put, keys_cons, List.mem_cons]
    split <;> grind

/-- An item under a new name comes last. -/
theorem put_of_not_mem {key : String} {fields : List (String × α)} (h : key ∉ keys fields)
    (item : α) : put key item fields = fields ++ [(key, item)] := by
  induction fields with
  | nil => rfl
  | cons entry rest ih =>
    rw [keys_cons, List.mem_cons, not_or] at h
    rw [put, if_neg (Ne.symm h.1), ih h.2, List.cons_append]

/-- Pairs under distinct keys are put one behind the other. -/
theorem putAll_eq_append {fields pairs : List (String × α)}
    (h : (keys (fields ++ pairs)).Nodup) : putAll fields pairs = fields ++ pairs := by
  induction pairs generalizing fields with
  | nil => exact (List.append_nil fields).symm
  | cons pair rest ih =>
    have hNew : pair.1 ∉ keys fields := by
      rw [keys, List.map_append, List.nodup_append] at h
      exact fun hMem => h.2.2 _ hMem _ (List.mem_cons_self ..) rfl
    -- each pair in turn is moved to the end of the fields
    have hMoved : (fields ++ [pair]) ++ rest = fields ++ pair :: rest := by
      rw [List.append_assoc, List.singleton_append]
    rw [putAll, List.foldl_cons, put_of_not_mem hNew, ← hMoved]
    rw [← hMoved] at h
    exact ih h

/-- Pairs under distinct names stay as they are. -/
theorem ofPairs_eq_self {pairs : List (String × α)} (h : (keys pairs).Nodup) :
    ofPairs pairs = pairs :=
  putAll_eq_append h

/-- New names come behind the old ones, in the order in which they first
appear. -/
theorem keys_putAll (fields pairs : List (String × α)) :
    keys (putAll fields pairs) =
      keys fields ++ ((keys pairs).filter fun key => key ∉ keys fields).eraseDups := by
  induction pairs generalizing fields with
  | nil => exact (List.append_nil _).symm
  | cons pair rest ih =>
    show keys (putAll (put pair.1 pair.2 fields) rest) = _
    rw [ih, keys_put, keys_cons]
    split
    · next hOld => rw [List.filter_cons_of_neg (by simpa using hOld)]
    · next hNew =>
      -- the new name is the first of its kind, and is not counted again
      have hLater : ((keys rest).filter fun key => key ∉ keys fields ++ [pair.1]) =
          (keys rest).filter fun key => !key == pair.1 && decide (key ∉ keys fields) := by
        refine List.filter_congr fun key _ => ?_
        by_cases hSame : key = pair.1 <;> simp [hSame]
      rw [List.filter_cons_of_pos (by simpa using hNew), List.eraseDups_cons, List.filter_filter,
        List.append_assoc, List.singleton_append, hLater]

/-- The names of pairs are those that they begin with, each once. -/
theorem keys_ofPairs (pairs : List (String × α)) :
    keys (ofPairs pairs) = (keys pairs).eraseDups := by
  have hAll : ((keys pairs).filter fun key => key ∉ keys ([] : List (String × α))) = keys pairs :=
    List.filter_eq_self.mpr fun key _ => decide_eq_true List.not_mem_nil
  rw [ofPairs, keys_putAll, hAll]
  rfl

/-- Under a name stands the item put last. -/
theorem lookup_putAll (fields pairs : List (String × α)) (key : String) :
    (putAll fields pairs).lookup key = (pairs.reverse.lookup key).or (fields.lookup key) := by
  induction pairs generalizing fields with
  | nil => rfl
  | cons pair rest ih =>
    show (putAll (put pair.1 pair.2 fields) rest).lookup key = _
    rw [ih, List.reverse_cons, List.lookup_append, Option.or_assoc]
    -- what was put later comes first either way, so only this pair is left
    congr 1
    by_cases hKey : key = pair.1
    · rw [hKey, lookup_put_self, List.lookup_cons_self, Option.some_or]
    · have hOther : (key == pair.1) = false := beq_eq_false_iff_ne.mpr hKey
      rw [lookup_put_of_ne hKey, List.lookup_cons, hOther]
      rfl

/-! ## Putting what was put together before -/

/-- An item is replaced by the one put later under its name. -/
theorem put_put_self (key : String) (old item : α) (fields : List (String × α)) :
    put key item (put key old fields) = put key item fields := by
  induction fields with
  | nil => exact if_pos rfl
  | cons entry rest ih =>
    rw [put, put]
    split
    · exact if_pos rfl
    · next hOther => rw [put, if_neg hOther, ih]

/-- A name that is there keeps its place whatever else is put. -/
theorem put_comm {key other : String} (hNe : other ≠ key) {fields : List (String × α)}
    (hKey : key ∈ keys fields) (item more : α) :
    put key item (put other more fields) = put other more (put key item fields) := by
  induction fields with
  | nil => exact absurd hKey List.not_mem_nil
  | cons entry rest ih =>
    obtain ⟨name, old⟩ := entry
    -- the first entry is the item, or the other one, or neither
    by_cases hSame : name = key
    · subst hSame
      simp [put, Ne.symm hNe]
    · have hRest : key ∈ keys rest := (List.mem_cons.mp hKey).resolve_left (Ne.symm hSame)
      by_cases hOther : name = other
      · subst hOther
        simp [put, hNe]
      · simp [put, hSame, hOther, ih hRest]

/-- An item whose name is there may be put before the others or after them. -/
theorem put_putAll {key : String} {fields pairs : List (String × α)} (hKey : key ∈ keys fields)
    (hNew : key ∉ keys pairs) (item : α) :
    put key item (putAll fields pairs) = putAll (put key item fields) pairs := by
  induction pairs generalizing fields with
  | nil => rfl
  | cons pair rest ih =>
    rw [keys_cons, List.mem_cons, not_or] at hNew
    -- the name has its place already, so the pairs do not come in front of it
    have hStays : key ∈ keys (put pair.1 pair.2 fields) := by
      rw [keys_put]
      split
      · exact hKey
      · exact List.mem_append_left _ hKey
    show put key item (putAll (put pair.1 pair.2 fields) rest) =
      putAll (put pair.1 pair.2 (put key item fields)) rest
    rw [ih hStays hNew.2, put_comm (Ne.symm hNew.1) hKey]

/-- An item put among others can be put behind them. -/
theorem putAll_put {pairs : List (String × α)} (hPairs : (keys pairs).Nodup)
    (fields : List (String × α)) (key : String) (item : α) :
    putAll fields (put key item pairs) = put key item (putAll fields pairs) := by
  induction pairs generalizing fields with
  | nil => rfl
  | cons pair rest ih =>
    obtain ⟨name, old⟩ := pair
    obtain ⟨hNew, hRest⟩ := List.nodup_cons.mp hPairs
    rw [put]
    split
    · next hSame =>
      obtain rfl : name = key := hSame
      -- the old item gives the name its place, and the new one is put there
      have hThere : name ∈ keys (put name old fields) := by
        rw [keys_put]
        split
        · assumption
        · exact List.mem_append_right _ (List.mem_singleton_self name)
      show putAll (put name item fields) rest = put name item (putAll (put name old fields) rest)
      rw [put_putAll hThere hNew, put_put_self]
    · exact ih hRest (put name old fields)

/-- Fields put together before are put as the items they were made of. -/
theorem putAll_putAll (fields : List (String × α)) {settled : List (String × α)}
    (hSettled : (keys settled).Nodup) (pairs : List (String × α)) :
    putAll fields (putAll settled pairs) = putAll (putAll fields settled) pairs := by
  induction pairs generalizing settled with
  | nil => rfl
  | cons pair rest ih =>
    show putAll fields (putAll (put pair.1 pair.2 settled) rest) =
      putAll (put pair.1 pair.2 (putAll fields settled)) rest
    rw [ih (nodup_keys_put hSettled pair.1 pair.2), putAll_put hSettled]

end JsonStencil.Fields
