import JsonStencil.Plan.OfSchema
import JsonStencil.Plan.Run

/-!
# How a node is encoded

Compiling a node comes down to one of few shapes: nothing at all, one step
behind a guard, the generic text, an object with its fields, or an array that
is joined or looped over. The shape of a node depends on the schema alone,
neither on the path of the value nor on the indices handed out before, and
the nodes below an object or a loop weigh less than the node itself. What is
proved of compiled schemas goes by these shapes.

Main definitions:

* `Node` — the shapes.
* `Schema.node` — the shape of a schema node.
* `Node.compiled` — the steps of a shape.

Main results:

* `Schema.node_induction` — induction from the parts of a node to the node.
* `Schema.compile_eq` — compiling a node is compiling its shape.
-/

namespace JsonStencil

/-! ## Shapes -/

/-- How a scalar is written. -/
inductive Writer where
  | quoted
  | raw

namespace Writer

/-- The step that writes a scalar. -/
def step : Writer → Path → Step
  | .quoted => .quoted
  | .raw => .raw

/-- The step that writes an array of scalars. -/
def joinStep : Writer → Path → Step
  | .quoted => .joinQuoted
  | .raw => .joinRaw

/-- The text of a scalar. -/
def text (escaping : Json.Escaping) : Writer → Value → String
  | .quoted => Value.quotedText escaping
  | .raw => Value.rawText escaping

end Writer

/-- The ways in which a schema node is encoded. -/
inductive Node where
  /-- Nothing is written. -/
  | silent
  /-- The generic text is written. -/
  | generic
  | scalar (writer : Writer) (guard : Option Guard)
  | date (guard : Option Guard)
  | object (properties : List (String × Schema)) (guard : Option Guard)
  /-- An array whose items are written directly. -/
  | joined (writer : Writer) (guard : Option Guard)
  /-- An array whose items are nodes of their own. -/
  | loop (items : Schema) (guard : Option Guard)

namespace Node

/-- The nodes from which the steps of a node are made. -/
def parts : Node → List Schema
  | .object properties _ => properties.map Prod.snd
  | .loop items _ => [items]
  | _ => []

/-- Whether a shape writes the value by itself, without parts. -/
def isLeaf : Node → Bool
  | .generic | .scalar _ _ | .date _ | .joined _ _ => true
  | _ => false

/-- The steps of a shape and the indices handed out for them. -/
def compiled (path : Path) (a : Allocation) : Node → Fragment × Allocation
  | .silent => ({}, a)
  | .generic => (Fragment.of (.generic path), a)
  | .scalar writer guard => ((Fragment.of (writer.step path)).guarded path guard, a)
  | .date guard => ((Fragment.of (.date path)).guarded path guard, a)
  | .object properties guard =>
    let opened := Schema.openGroup properties a
    let fields := Schema.compileFields properties path opened.1 false opened.2
    ((((Schema.opening opened.1).append fields.1).addText "\x7d").guarded path guard, fields.2)
  | .joined writer guard =>
    ((Fragment.of (writer.joinStep path)).guarded path guard, a.nextLoop.2)
  | .loop items guard =>
    let item := items.compile (.item a.nextLoop.1) a.nextLoop.2
    ((Fragment.of (.loop path a.nextLoop.1 item.1.steps)).guarded path guard, item.2)

end Node

namespace Schema

/-- The fragment of a field that is written, and the indices handed out
after it. -/
def compileField (key : String) (property : Schema) (path : Path) (group : Option Nat)
    (placed : Bool) (a : Allocation) : Fragment × Allocation :=
  let source := propertyPath property (path.field key) a
  let value := property.compile source.1 source.2
  (((separator placed group).addText (label key)).append value.1, value.2)

/-- The shape of an object or of what is merged into one. -/
def objectNode (s : Schema) (guard : Option Guard) : Node :=
  match s.merge with
  | .object properties _ additional _ => if additional then .generic else .object properties guard
  | _ => .generic

/-- How the items of an array are written directly, if they are. -/
def itemWriter? (items : Schema) : Option Writer :=
  match items with
  | .scalar (.string _) _ => some .quoted
  | .scalar .number _ | .scalar .boolean _ | .scalar .bigint _ => some .raw
  | _ => if items.isIntegerString then some .raw else none

/-- The shape of an array. -/
def arrayNode (items : Schema) (guard : Option Guard) : Node :=
  match items.itemWriter? with
  | some writer => .joined writer guard
  | none => .loop items guard

/-- The guard of a node that may have null and undefined members of its
own. -/
def wideGuard (effective declared : Schema) (null undefined : Bool) : Option Guard :=
  Guard.of? (null || effective.nullishMembers.1) (undefined || effective.nullishMembers.2)
    (defaultText effective declared)

/-- The shape of a date, a string of digits or anything else. -/
def otherNode (effective declared : Schema) (null undefined : Bool) : Node :=
  if effective.isDateLike || effective.isDate then
    .date (wideGuard effective declared null undefined)
  else if effective.isIntegerString then
    .scalar .raw (wideGuard effective declared null undefined)
  else .generic

/-- The shape of a node. -/
def node (s : Schema) : Node :=
  let null := s.peel.nullable
  let undefined := s.peel.undefinable
  let guard := Guard.of? null undefined "null"
  match s.peel.schema with
  | .scalar (.string _) _ =>
    .scalar .quoted (Guard.of? null undefined (defaultText s.peel.schema s))
  | .scalar .number _ | .scalar .boolean _ | .scalar .bigint _ =>
    .scalar .raw (Guard.of? null undefined (defaultText s.peel.schema s))
  | .scalar .null _ => .scalar .raw none
  | .scalar .undefined _ => .silent
  | .object _ _ _ _ => objectNode s.peel.schema guard
  | .array items _ => arrayNode items guard
  | .intersection members _ =>
    if anyObjectTyped members then objectNode s.peel.schema guard
    else otherNode s.peel.schema s null undefined
  | _ => otherNode s.peel.schema s null undefined

/-! ## Parts weigh less -/

/-- A property weighs no more than the properties it is among. -/
theorem weight_le_weightProperties {property : Schema} {properties : List (String × Schema)}
    (h : property ∈ properties.map Prod.snd) : property.weight ≤ weightProperties properties := by
  induction properties with
  | nil => exact absurd h List.not_mem_nil
  | cons entry rest ih =>
    rw [weightProperties]
    rcases List.mem_cons.mp h with rfl | hRest
    · omega
    · have := ih hRest
      omega

/-- The properties of an object weigh less than it, merged or not. -/
theorem weight_lt_of_mem_objectNode {s part : Schema} {guard : Option Guard}
    (h : part ∈ (s.objectNode guard).parts) : part.weight < s.weight := by
  have hMerge := weight_merge_le s
  unfold objectNode at h
  -- an object with additional properties has no parts
  split at h
  · next properties _ additional _ hEq =>
    split at h
    · exact absurd h List.not_mem_nil
    · have hPart := weight_le_weightProperties h
      rw [hEq, weight] at hMerge
      omega
  · exact absurd h List.not_mem_nil

/-- The items of a loop are those of the array. -/
theorem weight_le_of_mem_arrayNode {items part : Schema} {guard : Option Guard}
    (h : part ∈ (items.arrayNode guard).parts) : part.weight ≤ items.weight := by
  unfold arrayNode at h
  split at h
  · exact absurd h List.not_mem_nil
  · exact Nat.le_of_eq (congrArg weight (List.mem_singleton.mp h))

/-- Dates and strings of digits have no parts, nor has the generic text. -/
theorem parts_otherNode (effective declared : Schema) (null undefined : Bool) :
    (otherNode effective declared null undefined).parts = [] := by
  unfold otherNode
  split
  · rfl
  · split <;> rfl

/-- The parts of a node weigh less than the node. -/
theorem weight_lt_of_mem_parts {s part : Schema} (h : part ∈ s.node.parts) :
    part.weight < s.weight := by
  have hPeel := weight_peel_le s
  unfold node at h
  -- parts come from an object, from what is merged into one, or from an array
  split at h
  any_goals exact absurd h List.not_mem_nil
  · next => exact Nat.lt_of_lt_of_le (weight_lt_of_mem_objectNode h) hPeel
  · next items _ hEq =>
    have hItems := weight_le_of_mem_arrayNode h
    rw [hEq, weight] at hPeel
    omega
  · split at h
    · exact Nat.lt_of_lt_of_le (weight_lt_of_mem_objectNode h) hPeel
    · rw [parts_otherNode] at h
      exact absurd h List.not_mem_nil
  · rw [parts_otherNode] at h
    exact absurd h List.not_mem_nil

/-- What holds of a node whenever it holds of the node's parts holds of every
schema. -/
theorem node_induction {P : Schema → Prop}
    (step : ∀ s, (∀ part ∈ s.node.parts, P part) → P s) (s : Schema) : P s :=
  -- by weight, since merging makes properties that are no subterms
  step s fun part _hPart =>
    have := weight_lt_of_mem_parts _hPart
    node_induction step part
termination_by s.weight

/-! ## What a shape says of its node -/

/-- The node behind each shape, and the guard in front of it. -/
inductive Shaped (s : Schema) : Node → Prop where
  | silent (h : s.isUndefined = true) : Shaped s .silent
  | generic : Shaped s .generic
  | scalar (writer : Writer) (null undefined : Bool) :
    Shaped s (.scalar writer (Guard.of? null undefined (defaultText s.peel.schema s)))
  | date (null undefined : Bool) :
    Shaped s (.date (Guard.of? null undefined (defaultText s.peel.schema s)))
  | object {properties : List (String × Schema)} {required : List String} {marks : Marks}
    (h : s.peel.schema.merge = .object properties required false marks) :
    Shaped s (.object properties (Guard.of? s.peel.nullable s.peel.undefinable "null"))
  | joined (writer : Writer) :
    Shaped s (.joined writer (Guard.of? s.peel.nullable s.peel.undefinable "null"))
  | loop {items : Schema} {marks : Marks} (h : s.peel.schema = .array items marks) :
    Shaped s (.loop items (Guard.of? s.peel.nullable s.peel.undefinable "null"))

/-- What merges into an object is a closed object, or is left to the generic
text. -/
theorem shaped_objectNode {s : Schema} :
    s.Shaped (s.peel.schema.objectNode (Guard.of? s.peel.nullable s.peel.undefinable "null")) := by
  unfold objectNode
  split
  · next properties required additional marks hMerge =>
    cases additional with
    | true => exact .generic
    | false => exact .object hMerge
  · exact .generic

/-- A union is a date, a string of digits or neither. -/
theorem shaped_otherNode (s : Schema) (null undefined : Bool) :
    s.Shaped (otherNode s.peel.schema s null undefined) := by
  unfold otherNode
  split
  · exact .date _ _
  · split
    · exact .scalar _ _ _
    · exact .generic

/-- The only member beside null and undefined is a member, and neither of the
two. -/
theorem mem_of_core {members : List Schema} {core : Schema}
    (h : (members.filter fun member => !member.isNullish) = [core]) :
    core ∈ members ∧ core.isNullish = false := by
  have hCore : core ∈ members.filter fun member => !member.isNullish :=
    h ▸ List.mem_singleton_self core
  obtain ⟨hMember, hKept⟩ := List.mem_filter.mp hCore
  exact ⟨hMember, by simpa using hKept⟩

/-- Peeling never uncovers a node that is undefined alone. -/
theorem isUndefined_of_peel {s : Schema} (h : s.peel.schema.isUndefined = true) :
    s.isUndefined = true := by
  cases s with
  | union members marks =>
    rw [peel] at h
    split at h
    · next core hFilter =>
      have hKept := (mem_of_core hFilter).2
      rw [isNullish, h, Bool.or_true] at hKept
      cases hKept
    · exact h
  | _ => exact h

/-- Every node is behind the shape that it has. -/
theorem shaped_node (s : Schema) : s.Shaped s.node := by
  unfold node
  -- the kinds in the order in which the shape is chosen
  split
  · exact .scalar _ _ _
  · exact .scalar _ _ _
  · exact .scalar _ _ _
  · exact .scalar _ _ _
  · exact .scalar .raw false false
  · next hCore => exact .silent (isUndefined_of_peel (by rw [hCore]; rfl))
  · exact shaped_objectNode
  · next items marks hCore =>
    unfold arrayNode
    split
    · exact .joined _
    · exact .loop hCore
  · split
    · exact shaped_objectNode
    · exact shaped_otherNode ..
  · exact shaped_otherNode ..

/-- Nothing is written for a node that is undefined alone, and for no
other. -/
theorem node_eq_silent_iff (s : Schema) : s.node = .silent ↔ s.isUndefined = true := by
  constructor
  · intro hNode
    have hShaped := hNode ▸ shaped_node s
    cases hShaped with
    | silent h => exact h
  · intro h
    cases s with
    | scalar kind marks =>
      cases kind with
      | undefined => rfl
      | _ => cases h
    | _ => cases h

/-- A node writes nothing, or it is a leaf, an object or a loop. -/
theorem node_cases (s : Schema) :
    s.node = .silent ∨ s.node.isLeaf = true ∨
      (∃ properties guard, s.node = .object properties guard) ∨
        ∃ items guard, s.node = .loop items guard := by
  cases s.node with
  | silent => exact Or.inl rfl
  | generic | scalar _ _ | date _ | joined _ _ => exact Or.inr (Or.inl rfl)
  | object properties guard => exact Or.inr (Or.inr (Or.inl ⟨properties, guard, rfl⟩))
  | loop items guard => exact Or.inr (Or.inr (Or.inr ⟨items, guard, rfl⟩))

/-- The properties of an object are parts of its node. -/
theorem mem_parts_of_object {s : Schema} {properties : List (String × Schema)}
    {guard : Option Guard} (hNode : s.node = .object properties guard)
    {entry : String × Schema} (hEntry : entry ∈ properties) : entry.2 ∈ s.node.parts := by
  rw [hNode]
  exact List.mem_map_of_mem hEntry

/-- The items of a loop are a part of its node. -/
theorem mem_parts_of_loop {s items : Schema} {guard : Option Guard}
    (hNode : s.node = .loop items guard) : items ∈ s.node.parts := by
  rw [hNode]
  exact List.mem_singleton_self items

/-! ## Compiling by shape -/

/-- Compiling an object is compiling its shape; the members passed over are
noted. -/
theorem compileObject_eq (s : Schema) (path : Path) (guard : Option Guard) (a : Allocation) :
    compileObject s path guard a =
      (s.objectNode guard).compiled path (a.noteAll (s.passedOver.map .passedOver)) := by
  rw [compileObject]
  split
  · next properties _ additional _ hMerge =>
    simp only [objectNode, hMerge]
    cases additional <;> rfl
  · next hMerge =>
    unfold objectNode
    split
    · next hObject => exact absurd hObject (hMerge _ _ _ _)
    · rfl

/-- An array is joined where its items are written directly. -/
theorem joinStep?_eq (items : Schema) (path : Path) :
    joinStep? items path = items.itemWriter?.map fun writer => writer.joinStep path := by
  cases items with
  | scalar kind _ => cases kind <;> rfl
  | _ =>
    simp only [joinStep?, itemWriter?]
    split <;> rfl

/-- Compiling an array is compiling its shape. -/
theorem compileArray_eq (items : Schema) (path : Path) (guard : Option Guard) (a : Allocation) :
    compileArray items path guard a = (items.arrayNode guard).compiled path a := by
  rw [compileArray, joinStep?_eq, arrayNode]
  cases items.itemWriter? <;> rfl

/-- So is compiling anything else; a fallback to the generic text is noted. -/
theorem compileOther_eq (effective declared : Schema) (path : Path) (null undefined : Bool)
    (a : Allocation) :
    ∃ notes, compileOther effective declared path null undefined a =
      (otherNode effective declared null undefined).compiled path (a.noteAll notes) := by
  have hNone : a.noteAll [] = a := by rw [Allocation.noteAll, List.append_nil]
  unfold compileOther otherNode
  -- a date first, then a string of digits
  by_cases hDate : effective.isDateLike || effective.isDate
  · exact ⟨[], by simp only [hDate, if_true, hNone]; rfl⟩
  · by_cases hDigits : effective.isIntegerString
    · exact ⟨[], by simp only [hDate, hDigits, if_true, hNone]; rfl⟩
    · exact ⟨[.fallback effective.kindName path], by simp only [hDate, hDigits]; rfl⟩

/-- Compiling a node is compiling its shape, notes apart. -/
theorem compile_eq (s : Schema) (path : Path) (a : Allocation) :
    ∃ notes, s.compile path a = s.node.compiled path (a.noteAll notes) := by
  have hNone : a.noteAll [] = a := by rw [Allocation.noteAll, List.append_nil]
  rw [compile]
  -- the kinds in the order of the definition; the scalars are left to the end
  split
  case h_7 hCore =>
    simp only [node, hCore]
    exact ⟨_, compileObject_eq ..⟩
  case h_8 hCore =>
    simp only [node, hCore]
    exact ⟨[], by rw [hNone, compileArray_eq]⟩
  case h_9 members _ hCore =>
    simp only [node, hCore]
    by_cases hMerges : anyObjectTyped members
    · simp only [hMerges, if_true]
      exact ⟨_, compileObject_eq ..⟩
    · simp only [hMerges, Bool.false_eq_true, if_false]
      exact compileOther_eq ..
  case h_10 =>
    unfold node
    split <;> first
      | exact compileOther_eq ..
      | grind
  all_goals
    next hCore =>
      simp only [node, hCore]
      exact ⟨[], by rw [hNone]; rfl⟩

/-! ## Compiling fields -/

section Fields

variable {key : String} {property : Schema} (rest : List (String × Schema)) (path : Path)
  (group : Option Nat) (placed : Bool) (a : Allocation)

theorem compileFields_nil : compileFields [] path group placed a = ({}, a) := by
  rw [compileFields]

/-- A property that is never defined has no field. -/
theorem compileFields_undefined (h : property.isUndefined = true) :
    compileFields ((key, property) :: rest) path group placed a =
      compileFields rest path group placed a := by
  rw [compileFields, if_pos h]

/-- A property that may be absent becomes a step with two branches. -/
theorem compileFields_optional (h : property.isUndefined = false)
    (hOptional : property.optional = true) :
    compileFields ((key, property) :: rest) path group placed a =
      let field := compileField key property path group placed a
      let others := compileFields rest path group placed field.2
      ((Fragment.of (.optional (propertyPath property (path.field key) a).1 field.1.steps
        (absentField placed group key property).steps)).append others.1, others.2) := by
  rw [compileFields, if_neg (by rw [h]; exact Bool.false_ne_true), if_pos hOptional]
  rfl

/-- Behind a property that is always there every comma is certain. -/
theorem compileFields_required (h : property.isUndefined = false)
    (hRequired : property.optional = false) :
    compileFields ((key, property) :: rest) path group placed a =
      let field := compileField key property path group placed a
      let others := compileFields rest path group true field.2
      (field.1.append others.1, others.2) := by
  rw [compileFields, if_neg (by rw [h]; exact Bool.false_ne_true),
    if_neg (by rw [hRequired]; exact Bool.false_ne_true)]
  rfl

end Fields

end Schema

end JsonStencil
