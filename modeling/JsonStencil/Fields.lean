/-!
# Ordered fields

The members of a JSON object, the entries of a runtime object and the
properties of an object schema are all lists of named items in the order in
which their names first appeared. Putting an item under a name that is
already there replaces the item and keeps its place.

Main definitions:

* `Fields.put` — one item under a name.
* `Fields.ofPairs` — fields from pairs whose names may repeat.

Main results:

* `lookup_put_self` / `lookup_put_of_ne` — what a lookup sees after a put.
* `keys_put` — the order of the names after a put.
-/

namespace JsonStencil.Fields

variable {α : Type}

/-- Puts an item under a name: in place of the item that is there, else at
the end. -/
def put (key : String) (item : α) : List (String × α) → List (String × α)
  | [] => [(key, item)]
  | entry :: rest =>
    if entry.1 = key then (key, item) :: rest else entry :: put key item rest

/-- Puts every pair in turn. -/
def putAll (fields pairs : List (String × α)) : List (String × α) :=
  pairs.foldl (fun acc pair => put pair.1 pair.2 acc) fields

/-- Fields from pairs: a repeated name keeps its first place and its last
item. -/
def ofPairs (pairs : List (String × α)) : List (String × α) := putAll [] pairs

/-- The names in order. -/
def keys (fields : List (String × α)) : List String := fields.map Prod.fst

/-! ## Lookup after a put -/

/-- What is put under a name is found there. -/
theorem lookup_put_self (key : String) (item : α) (fields : List (String × α)) :
    (put key item fields).lookup key = some item := by
  induction fields with
  | nil => simp [put]
  | cons entry rest ih =>
    obtain ⟨name, old⟩ := entry
    by_cases h : name = key
    · simp [put, h]
    · have hne : (key == name) = false := by simpa using fun e => h e.symm
      simp [put, h, List.lookup_cons, hne, ih]

/-- What is put under one name leaves the others alone. -/
theorem lookup_put_of_ne {key other : String} (h : other ≠ key) (item : α)
    (fields : List (String × α)) :
    (put key item fields).lookup other = fields.lookup other := by
  have hne : (other == key) = false := by simpa using h
  induction fields with
  | nil => simp [put, List.lookup_cons, hne]
  | cons entry rest ih =>
    obtain ⟨name, old⟩ := entry
    by_cases he : name = key
    · have : (other == name) = false := by simpa [he] using h
      simp [put, he, List.lookup_cons, hne]
    · simp only [put, he, if_false, List.lookup_cons, ih]

@[simp] theorem keys_cons (entry : String × α) (rest : List (String × α)) :
    keys (entry :: rest) = entry.1 :: keys rest := rfl

/-- A new name goes to the end, a known one keeps its place. -/
theorem keys_put (key : String) (item : α) (fields : List (String × α)) :
    keys (put key item fields) =
      if key ∈ keys fields then keys fields else keys fields ++ [key] := by
  induction fields with
  | nil => simp [put, keys]
  | cons entry rest ih =>
    by_cases h : entry.1 = key
    · simp [put, h]
    · have hne : ¬ key = entry.1 := fun e => h e.symm
      by_cases hm : key ∈ keys rest <;> simp [put, h, hne, hm, ih]

end JsonStencil.Fields
