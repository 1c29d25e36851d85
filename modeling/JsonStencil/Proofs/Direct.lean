import JsonStencil.Proofs.Nodes

/-!
# Writing without a plan

The text that a schema gives a value, by recursion on the two alone: there is
no plan, no flag, no slot and no alias, and the commas of an object stand
between the fields that are there. This is what the plan of a schema is
measured by.

Main definitions:

* `Schema.direct` — the text of a value as a schema describes it.
* `Node.direct` — the same, by the shape of a node.

Main results:

* `direct_eq` — the text of a node is the text of its shape.
-/

namespace JsonStencil

/-- Whether a value is a null or an undefined that the flags admit. -/
def admitsNullish (null undefined : Bool) (v : Value) : Bool :=
  (null && v.isNull) || (undefined && v.isUndefined)

namespace Schema

/-! ## The text of a node -/

/-- The text of a date, a string of digits or a value that no schema speaks
of. The null and undefined members of the node count beside the flags. -/
def directOther (escaping : Json.Escaping) (effective declared : Schema)
    (null undefined : Bool) (v : Value) : String :=
  let hit := admitsNullish (null || effective.nullishMembers.1)
    (undefined || effective.nullishMembers.2) v
  if effective.isDateLike || effective.isDate then
    if hit then defaultText effective declared else v.dateText escaping
  else if effective.isIntegerString then
    if hit then defaultText effective declared else v.rawText escaping
  else v.text

mutual

/-- The text of a value as a schema describes it. -/
def direct (escaping : Json.Escaping) (s : Schema) (v : Value) : String :=
  have _hweight := weight_peel_le s
  let hit := admitsNullish s.peel.nullable s.peel.undefinable v
  match _h : s.peel.schema with
  | .scalar (.string _) _ =>
    if hit then defaultText s.peel.schema s else v.quotedText escaping
  | .scalar .number _ | .scalar .boolean _ | .scalar .bigint _ =>
    if hit then defaultText s.peel.schema s else v.rawText escaping
  | .scalar .null _ => v.rawText escaping
  | .scalar .undefined _ => ""
  | .object _ _ _ _ => directObject escaping s.peel.schema hit v
  | .intersection members _ =>
    if anyObjectTyped members then directObject escaping s.peel.schema hit v
    else directOther escaping s.peel.schema s s.peel.nullable s.peel.undefinable v
  | .array items _ =>
    if hit then "null" else v.joinedText fun item => directItem escaping items item
  | _ => directOther escaping s.peel.schema s s.peel.nullable s.peel.undefinable v
termination_by 3 * s.weight + 2
decreasing_by
  · omega
  · omega
  · rw [_h, weight] at _hweight
    omega

/-- The text of an object, an intersection being merged into one. -/
def directObject (escaping : Json.Escaping) (s : Schema) (hit : Bool) (v : Value) : String :=
  have _hweight := weight_merge_le s
  match _h : s.merge with
  | .object properties _ additional _ =>
    if additional then v.text
    else if hit then "null"
    else braced (directFields escaping properties v)
  | _ => v.text
termination_by 3 * s.weight + 1
decreasing_by
  rw [_h, weight] at _hweight
  omega

/-- The fields of an object in the order of declaration. -/
def directFields (escaping : Json.Escaping) (properties : List (String × Schema)) (v : Value) :
    List String :=
  match properties with
  | [] => []
  | (key, property) :: rest =>
    have _hweight := weight_pos property
    if property.isUndefined then directFields escaping rest v
    else if property.optional && (v.get key).isUndefined then
      match property.default with
      | some default => (label key ++ default.text) :: directFields escaping rest v
      | none => directFields escaping rest v
    else (label key ++ direct escaping property (v.get key)) :: directFields escaping rest v
termination_by 3 * weightProperties properties + 3
decreasing_by all_goals (simp only [weightProperties]; omega)

/-- The text of an item of an array. -/
def directItem (escaping : Json.Escaping) (items : Schema) (item : Value) : String :=
  match items.itemWriter? with
  | some writer => writer.text escaping item
  | none => direct escaping items item
termination_by 3 * items.weight + 3
decreasing_by omega

end

end Schema

/-! ## The text of a shape -/

/-- A text behind a guard. -/
def guardedText (guard : Option Guard) (v : Value) (text : String) : String :=
  match guard with
  | some guard => if guard.hits v then guard.fallback else text
  | none => text

@[simp] theorem guardedText_none (v : Value) (text : String) : guardedText none v text = text :=
  rfl

/-- A guard made of two flags asks for a nullish value that they admit. -/
theorem guardedText_of? (null undefined : Bool) (fallback text : String) (v : Value) :
    guardedText (Guard.of? null undefined fallback) v text =
      if admitsNullish null undefined v then fallback else text := by
  cases null <;> cases undefined <;> rfl

/-- The text of a value by the shape of its node. -/
def Node.direct (escaping : Json.Escaping) (v : Value) : Node → String
  | .silent => ""
  | .generic => v.text
  | .scalar writer guard => guardedText guard v (writer.text escaping v)
  | .date guard => guardedText guard v (v.dateText escaping)
  | .object properties guard =>
    guardedText guard v (braced (Schema.directFields escaping properties v))
  | .joined writer guard => guardedText guard v (v.joinedText (writer.text escaping))
  | .loop items guard => guardedText guard v (v.joinedText (items.direct escaping))

namespace Schema

variable (escaping : Json.Escaping)

/-- Dates, strings of digits and the rest are written as their shape says. -/
theorem directOther_eq (effective declared : Schema) (null undefined : Bool) (v : Value) :
    directOther escaping effective declared null undefined v =
      (otherNode effective declared null undefined).direct escaping v := by
  unfold directOther otherNode
  -- asked for in the order in which the definition asks
  by_cases hDate : effective.isDateLike || effective.isDate
  · simp only [hDate, if_true, Node.direct, wideGuard, guardedText_of?]
  · by_cases hDigits : effective.isIntegerString
    · simp only [hDate, hDigits, if_true, Bool.false_eq_true, if_false, Node.direct, wideGuard,
        guardedText_of?, Writer.text]
    · simp only [hDate, hDigits, Bool.false_eq_true, if_false, Node.direct]

/-- An object is written as its shape says. -/
theorem directObject_eq (s : Schema) (null undefined : Bool) (v : Value) :
    directObject escaping s (admitsNullish null undefined v) v =
      (s.objectNode (Guard.of? null undefined "null")).direct escaping v := by
  rw [directObject]
  -- merged into an object, which is specialized unless it is open
  split
  · next properties _ additional _ hMerge =>
    simp only [objectNode, hMerge]
    cases additional with
    | true => rfl
    | false => simp only [Bool.false_eq_true, if_false, Node.direct, guardedText_of?]
  · next hMerge =>
    unfold objectNode
    split
    · next hObject => exact absurd hObject (hMerge _ _ _ _)
    · rfl

/-- An item is written by the writer of the items or as a node of its own. -/
theorem directItem_eq (items : Schema) :
    directItem escaping items =
      match items.itemWriter? with
      | some writer => writer.text escaping
      | none => items.direct escaping := by
  funext item
  rw [directItem]
  cases items.itemWriter? <;> rfl

/-- An array writes its items behind its guard, joined or not. -/
theorem direct_arrayNode (items : Schema) (guard : Option Guard) (v : Value) :
    (items.arrayNode guard).direct escaping v =
      guardedText guard v (v.joinedText (directItem escaping items)) := by
  rw [directItem_eq, arrayNode]
  cases items.itemWriter? <;> rfl

/-- An array is written as its shape says. -/
theorem directArray_eq (items : Schema) (null undefined : Bool) (v : Value) :
    (if admitsNullish null undefined v then "null"
      else v.joinedText fun item => directItem escaping items item) =
      (items.arrayNode (Guard.of? null undefined "null")).direct escaping v := by
  rw [direct_arrayNode, guardedText_of?]

/-- The text of a node is the text of its shape. -/
theorem direct_eq (s : Schema) (v : Value) : s.direct escaping v = s.node.direct escaping v := by
  rw [direct]
  split
  -- what the peeled node is decides; the kinds with parts come first
  case h_7 hCore =>
    simp only [node, hCore]
    exact directObject_eq ..
  case h_8 members _ hCore =>
    simp only [node, hCore]
    by_cases hMerges : anyObjectTyped members
    · simp only [hMerges, if_true]
      exact directObject_eq ..
    · simp only [hMerges, Bool.false_eq_true, if_false]
      exact directOther_eq ..
  case h_9 hCore =>
    simp only [node, hCore]
    exact directArray_eq ..
  case h_10 =>
    unfold node
    split <;> first
      | exact directOther_eq ..
      | grind
  -- the kinds that are written by a step of their own
  all_goals
    next hCore =>
      simp only [node, hCore, Node.direct, guardedText_of?, guardedText_none, Writer.text]

/-! ## The fields of an object -/

/-- The field that a property gives, or none. -/
def directField (key : String) (property : Schema) (v : Value) : List String :=
  if property.isUndefined then []
  else if property.optional && (v.get key).isUndefined then
    (property.default.map fun default => label key ++ default.text).toList
  else [label key ++ property.direct escaping (v.get key)]

/-- The fields of an object are those of its properties in turn. -/
theorem directFields_cons (key : String) (property : Schema) (rest : List (String × Schema))
    (v : Value) :
    directFields escaping ((key, property) :: rest) v =
      directField escaping key property v ++ directFields escaping rest v := by
  rw [directFields, directField]
  -- undefined alone, absent, or there
  split
  · rfl
  · split
    · cases property.default <;> rfl
    · rfl

/-- A field is written for a property that is there, or for the default of
one that is not. -/
theorem mem_directField {key : String} {property : Schema} {v : Value} {field : String} :
    field ∈ directField escaping key property v ↔
      property.isUndefined = false ∧
        if (property.optional && (v.get key).isUndefined) = true then
          ∃ default, property.default = some default ∧ field = label key ++ default.text
        else field = label key ++ property.direct escaping (v.get key) := by
  rw [directField]
  cases property.isUndefined with
  | true => simp
  | false =>
    simp only [Bool.false_eq_true, if_false, true_and]
    split
    · cases property.default <;> simp
    · exact List.mem_singleton

/-- Every field of an object is the field of one of its properties. -/
theorem mem_directFields {properties : List (String × Schema)} {v : Value} {field : String} :
    field ∈ directFields escaping properties v ↔
      ∃ entry ∈ properties, field ∈ directField escaping entry.1 entry.2 v := by
  induction properties with
  | nil => simp [directFields]
  | cons entry rest ih =>
    rw [directFields_cons, List.mem_append, ih]
    simp

end Schema

end JsonStencil
