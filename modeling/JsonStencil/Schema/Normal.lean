import JsonStencil.Schema.Basic

/-!
# Normal forms of schema nodes

Before a node is encoded it is looked at in three ways. A union of one member
with null or undefined is peeled down to that member and two flags. An
intersection with an object among its members is merged into one object. Two
kinds of unions are recognised as wholes: the ones with a date among their
members, and a string of format `integer` beside a number.

Merging takes the object members from left to right: of a repeated key the
first place and the last schema count, the lists of required keys are
joined, and one member that admits further keys suffices. Properties that
are intersections themselves are merged with it; members that are no objects
are passed over.

Main definitions:

* `Schema.peel` — a node without its null and undefined members.
* `Schema.merge` — an intersection as one object.
* `Schema.isIntegerString` / `Schema.isDateLike` — the two unions.

Main results:

* `weight_peel_le` / `weight_merge_le` — neither view of a node is larger
  than the node.
-/

namespace JsonStencil.Schema

/-! ## Peeling -/

/-- A node without its null and undefined members, and which of the two it
had. -/
structure Peeled where
  schema : Schema
  nullable : Bool
  undefinable : Bool

/-- Whether there was anything to peel. -/
def Peeled.isWrapped (p : Peeled) : Bool := p.nullable || p.undefinable

/-- Whether a node admits null alone or undefined alone. -/
def isNullish (s : Schema) : Bool := s.isNull || s.isUndefined

/-- The node that `X | null | undefined` wraps, with a flag for each of the
two. Any other node stays as it is, and so does a union with no or several
members beside null and undefined. -/
def peel (s : Schema) : Peeled :=
  match s with
  | .union members _ =>
    match members.filter fun member => !member.isNullish with
    | [core] => ⟨core, members.any isNull, members.any isUndefined⟩
    | _ => ⟨s, false, false⟩
  | _ => ⟨s, false, false⟩

/-- Whether a union has a null member and whether it has an undefined one,
peelable or not. -/
def nullishMembers : Schema → Bool × Bool
  | .union members _ => (members.any isNull, members.any isUndefined)
  | _ => (false, false)

/-! ## Merging -/

/-- Whether a node is an intersection that merges into an object. -/
def isMergeable : Schema → Bool
  | .intersection members _ => anyObjectTyped members
  | _ => false

/-- The object gathered so far while members are merged. -/
structure Gathered where
  properties : List (String × Schema) := []
  required : List String := []
  additional : Bool := false

/-- Takes in an object member; any other member is passed over. -/
def Gathered.absorb (g : Gathered) : Schema → Gathered
  | .object properties required additional _ =>
    { properties := Fields.putAll g.properties properties
      required := g.required ++ required
      additional := g.additional || additional }
  | _ => g

mutual

/-- An intersection with an object among its members as one object; any
other node as it is. The default and the optional marker stay. -/
def merge : Schema → Schema
  | .intersection members marks =>
    if anyObjectTyped members then
      let g := mergeMembers members {}
      .object g.properties g.required g.additional marks
    else .intersection members marks
  | other => other

/-- A member as it is taken in: merged, and its properties merged. -/
def mergeMember : Schema → Schema
  | .object properties required additional marks =>
    .object (mergeProperties properties) required additional marks
  | .intersection members marks =>
    if anyObjectTyped members then
      let g := mergeMembers members {}
      .object g.properties g.required g.additional marks
    else .intersection members marks
  | other => other

/-- Takes in the members from left to right. -/
def mergeMembers : List Schema → Gathered → Gathered
  | [], g => g
  | member :: rest, g => mergeMembers rest (g.absorb (mergeMember member))

/-- Merges every property. -/
def mergeProperties : List (String × Schema) → List (String × Schema)
  | [] => []
  | (key, property) :: rest => (key, merge property) :: mergeProperties rest

end

mutual

/-- The kinds of the members that merging a node passes over, in the order
in which it meets them. -/
def passedOver : Schema → List String
  | .intersection members _ => if anyObjectTyped members then passedOverMembers members else []
  | _ => []

/-- The kinds passed over on taking in one member. -/
def passedOverMember : Schema → List String
  | .object properties _ _ _ => passedOverProperties properties
  | .intersection members _ =>
    if anyObjectTyped members then passedOverMembers members else ["intersection"]
  | other => [other.kindName]

/-- Member by member. -/
def passedOverMembers : List Schema → List String
  | [] => []
  | member :: rest => passedOverMember member ++ passedOverMembers rest

/-- Property by property. -/
def passedOverProperties : List (String × Schema) → List String
  | [] => []
  | (_, property) :: rest => passedOver property ++ passedOverProperties rest

end

/-! ## Unions with an encoding of their own -/

/-- The members of a node inside a union: a union stands for its members. -/
def splice : Schema → List Schema
  | .union members _ => members
  | member => [member]

/-- The members of a union with nested unions spliced in one level deep. -/
def flatMembers : Schema → List Schema
  | .union members _ => members.flatMap splice
  | _ => []

/-- A string of format `integer`. -/
def isIntegerFormat : Schema → Bool
  | .scalar (.string (some format)) _ => format == "integer"
  | _ => false

/-- A number node. -/
def isNumber : Schema → Bool
  | .scalar .number _ => true
  | _ => false

/-- A union of one string of format `integer` and one number, whatever null
and undefined members stand beside or around them. -/
def isIntegerString (s : Schema) : Bool :=
  match s.flatMembers.filter fun member => !member.isNullish with
  | [first, second] =>
    (first.isIntegerFormat && second.isNumber) || (first.isNumber && second.isIntegerFormat)
  | _ => false

/-- A union with a date among its members. -/
def isDateLike (s : Schema) : Bool := s.flatMembers.any isDate

/-! ## Weights -/

mutual

/-- The number of nodes of a tree. -/
def weight : Schema → Nat
  | .scalar _ _ => 1
  | .object properties _ _ _ => 1 + weightProperties properties
  | .array items _ => 1 + weight items
  | .union members _ => 1 + weightMembers members
  | .intersection members _ => 1 + weightMembers members

/-- The nodes of all members. -/
def weightMembers : List Schema → Nat
  | [] => 0
  | member :: rest => weight member + weightMembers rest

/-- The nodes of all properties. -/
def weightProperties : List (String × Schema) → Nat
  | [] => 0
  | (_, property) :: rest => weight property + weightProperties rest

end

theorem weight_pos (s : Schema) : 0 < s.weight := by
  cases s <;> simp only [weight] <;> omega

/-- A member is no heavier than all of them together. -/
theorem weight_le_weightMembers {s : Schema} {members : List Schema} (h : s ∈ members) :
    s.weight ≤ weightMembers members := by
  induction members with
  | nil => cases h
  | cons member rest ih =>
    simp only [weightMembers]
    rcases List.mem_cons.1 h with rfl | hrest
    · omega
    · have := ih hrest
      omega

/-- Peeling a node does not make it larger. -/
theorem weight_peel_le (s : Schema) : s.peel.schema.weight ≤ s.weight := by
  cases s with
  | union members marks =>
    simp only [peel]
    split
    · next core h =>
      have hmem : core ∈ members :=
        (List.mem_filter.1 (h ▸ List.mem_singleton.2 rfl :
          core ∈ members.filter fun member => !member.isNullish)).1
      have := weight_le_weightMembers hmem
      simp only [weight]
      omega
    · exact Nat.le_refl _
  | _ => exact Nat.le_refl _

/-- A put adds one property at most. -/
theorem weightProperties_put (key : String) (property : Schema)
    (properties : List (String × Schema)) :
    weightProperties (Fields.put key property properties) ≤
      weightProperties properties + property.weight := by
  induction properties with
  | nil => simp [Fields.put, weightProperties]
  | cons entry rest ih =>
    obtain ⟨name, schema⟩ := entry
    simp only [Fields.put]
    split <;> simp only [weightProperties] <;> omega

/-- Puts add the pairs at most. -/
theorem weightProperties_putAll (pairs properties : List (String × Schema)) :
    weightProperties (Fields.putAll properties pairs) ≤
      weightProperties properties + weightProperties pairs := by
  induction pairs generalizing properties with
  | nil => simp [Fields.putAll, weightProperties]
  | cons pair rest ih =>
    have step := ih (Fields.put pair.1 pair.2 properties)
    have put := weightProperties_put pair.1 pair.2 properties
    simp only [Fields.putAll, List.foldl_cons, weightProperties] at step ⊢
    omega

/-- What is gathered grows by no more than the properties taken in. -/
theorem weight_absorb_le (g : Gathered) (s : Schema) :
    weightProperties (g.absorb s).properties ≤ weightProperties g.properties + s.weight := by
  cases s with
  | object properties required additional marks =>
    have := weightProperties_putAll properties g.properties
    simp only [Gathered.absorb, weight]
    omega
  | _ => simp only [Gathered.absorb]; omega

mutual

/-- Merging a node does not make it larger. -/
theorem weight_merge_le : ∀ s : Schema, s.merge.weight ≤ s.weight
  | .scalar _ _ | .object _ _ _ _ | .array _ _ | .union _ _ => by simp [merge]
  | .intersection members marks => by
    have h := weight_mergeMembers_le members {}
    simp only [merge]
    split
    · simp only [weight, weightProperties, Nat.zero_add] at h ⊢
      omega
    · exact Nat.le_refl _

/-- A merged member is no heavier than the member. -/
theorem weight_mergeMember_le : ∀ s : Schema, (mergeMember s).weight ≤ s.weight
  | .scalar _ _ | .array _ _ | .union _ _ => by simp [mergeMember]
  | .object properties _ _ _ => by
    have h := weight_mergeProperties_le properties
    simp only [mergeMember, weight]
    omega
  | .intersection members marks => by
    have h := weight_mergeMembers_le members {}
    simp only [mergeMember]
    split
    · simp only [weight, weightProperties, Nat.zero_add] at h ⊢
      omega
    · exact Nat.le_refl _

/-- What is gathered is no heavier than the members. -/
theorem weight_mergeMembers_le : ∀ (members : List Schema) (g : Gathered),
    weightProperties (mergeMembers members g).properties ≤
      weightProperties g.properties + weightMembers members
  | [], g => by simp [mergeMembers]
  | member :: rest, g => by
    have hmember := weight_mergeMember_le member
    have habsorb := weight_absorb_le g (mergeMember member)
    have hrest := weight_mergeMembers_le rest (g.absorb (mergeMember member))
    simp only [mergeMembers, weightMembers]
    omega

/-- Merged properties are no heavier than the properties. -/
theorem weight_mergeProperties_le : ∀ properties : List (String × Schema),
    weightProperties (mergeProperties properties) ≤ weightProperties properties
  | [] => by simp [mergeProperties]
  | (key, property) :: rest => by
    have hproperty := weight_merge_le property
    have hrest := weight_mergeProperties_le rest
    simp only [mergeProperties, weightProperties]
    omega

end

end JsonStencil.Schema
