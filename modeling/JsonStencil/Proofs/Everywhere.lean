import JsonStencil.Proofs.Nodes
import JsonStencil.Proofs.OrderedFields

/-!
# What holds throughout a schema

Peeling takes a node from inside the schema, but merging makes new ones: the
object that an intersection becomes, and an object whose own properties have
been merged. A property of nodes that holds throughout a schema is therefore
known of every part of a node only if it is passed on to the objects that
merging makes. Two such properties matter: that no node carries a default,
and that the keys of an object are distinct.

Main definitions:

* `Schema.Everywhere` — a property of every node of a schema.
* `MergeClosed` — a property that merging passes on.
* `Schema.Plain` / `Schema.KeysDistinct` — the two properties.

Main results:

* `everywhere_part` — what holds throughout a node holds throughout its
  parts.
-/

namespace JsonStencil

/-! ## Throughout a schema -/

namespace Schema

section Everywhere

variable (P : Schema → Prop)

mutual

/-- Every node of the tree has the property. -/
def Everywhere : Schema → Prop
  | .scalar kind marks => P (.scalar kind marks)
  | .object properties required additional marks =>
    P (.object properties required additional marks) ∧ EverywhereInProperties properties
  | .array items marks => P (.array items marks) ∧ Everywhere items
  | .union members marks => P (.union members marks) ∧ EverywhereInMembers members
  | .intersection members marks =>
    P (.intersection members marks) ∧ EverywhereInMembers members

/-- Every node of every member has it. -/
def EverywhereInMembers : List Schema → Prop
  | [] => True
  | member :: rest => Everywhere member ∧ EverywhereInMembers rest

/-- Every node of every property has it. -/
def EverywhereInProperties : List (String × Schema) → Prop
  | [] => True
  | (_, property) :: rest => Everywhere property ∧ EverywhereInProperties rest

end

end Everywhere

variable {P : Schema → Prop}

/-- What holds throughout a schema holds of its root. -/
theorem Everywhere.here {s : Schema} (h : s.Everywhere P) : P s := by
  cases s with
  | scalar kind marks => exact h
  | object _ _ _ _ => exact h.1
  | array _ _ => exact h.1
  | union _ _ => exact h.1
  | intersection _ _ => exact h.1

/-- Throughout a list of members means throughout each of them. -/
theorem everywhereInMembers_iff {members : List Schema} :
    EverywhereInMembers P members ↔ ∀ member ∈ members, member.Everywhere P := by
  induction members with
  | nil => simp [EverywhereInMembers]
  | cons member rest ih => simp [EverywhereInMembers, ih]

/-- Throughout the properties means throughout each of them. -/
theorem everywhereInProperties_iff {properties : List (String × Schema)} :
    EverywhereInProperties P properties ↔ ∀ entry ∈ properties, entry.2.Everywhere P := by
  induction properties with
  | nil => simp [EverywhereInProperties]
  | cons entry rest ih => simp [EverywhereInProperties, ih]

section Combine

variable {Q R : Schema → Prop}

mutual

/-- What follows of every node from two properties holds throughout if they
do. -/
theorem everywhere_combine (h : ∀ s, P s → Q s → R s) :
    ∀ s : Schema, s.Everywhere P → s.Everywhere Q → s.Everywhere R
  | .scalar _ _, hP, hQ => h _ hP hQ
  | .object properties _ _ _, hP, hQ =>
    ⟨h _ hP.1 hQ.1, everywhereInProperties_combine h properties hP.2 hQ.2⟩
  | .array items _, hP, hQ => ⟨h _ hP.1 hQ.1, everywhere_combine h items hP.2 hQ.2⟩
  | .union members _, hP, hQ => ⟨h _ hP.1 hQ.1, everywhereInMembers_combine h members hP.2 hQ.2⟩
  | .intersection members _, hP, hQ =>
    ⟨h _ hP.1 hQ.1, everywhereInMembers_combine h members hP.2 hQ.2⟩

/-- Member by member. -/
theorem everywhereInMembers_combine (h : ∀ s, P s → Q s → R s) : ∀ members : List Schema,
    EverywhereInMembers P members → EverywhereInMembers Q members → EverywhereInMembers R members
  | [], _, _ => trivial
  | member :: rest, hP, hQ =>
    ⟨everywhere_combine h member hP.1 hQ.1, everywhereInMembers_combine h rest hP.2 hQ.2⟩

/-- Property by property. -/
theorem everywhereInProperties_combine (h : ∀ s, P s → Q s → R s) :
    ∀ properties : List (String × Schema), EverywhereInProperties P properties →
      EverywhereInProperties Q properties → EverywhereInProperties R properties
  | [], _, _ => trivial
  | (_, property) :: rest, hP, hQ =>
    ⟨everywhere_combine h property hP.1 hQ.1, everywhereInProperties_combine h rest hP.2 hQ.2⟩

end

end Combine

/-- A weaker property holds throughout as well. -/
theorem Everywhere.mono {Q : Schema → Prop} {s : Schema} (h : s.Everywhere P)
    (hPQ : ∀ t, P t → Q t) : s.Everywhere Q :=
  everywhere_combine (fun t hP _ => hPQ t hP) s h h

/-- Peeling takes a node from the schema. -/
theorem everywhere_peel {s : Schema} (h : s.Everywhere P) : s.peel.schema.Everywhere P := by
  cases s with
  -- a wrapper gives way to the one member that is not nullish
  | union members marks =>
    rw [peel]
    split
    · next core hFilter => exact everywhereInMembers_iff.mp h.2 core (mem_of_core hFilter).1
    · exact h
  | _ => exact h

/-! ## Merging -/

/-- A property that merging passes on: to the object that an intersection
becomes, and to an object under the same keys with its properties merged. -/
structure MergeClosed (P : Schema → Prop) : Prop where
  merged : ∀ {members : List Schema} {marks : Marks} {properties : List (String × Schema)},
    P (.intersection members marks) → (Fields.keys properties).Nodup →
      ∀ (required : List String) (additional : Bool),
        P (.object properties required additional marks)
  rekeyed : ∀ {properties others : List (String × Schema)} {required : List String}
      {additional : Bool} {marks : Marks},
    P (.object properties required additional marks) →
      Fields.keys others = Fields.keys properties → P (.object others required additional marks)

/-- What has been gathered has the property throughout, under distinct
keys. -/
structure Gathered.Everywhere (P : Schema → Prop) (g : Gathered) : Prop where
  keys : (Fields.keys g.properties).Nodup
  properties : EverywhereInProperties P g.properties

/-- Taking in the properties of an object keeps it so. -/
theorem Gathered.Everywhere.absorb {g : Gathered} (hGathered : g.Everywhere P) {s : Schema}
    (h : s.Everywhere P) : (g.absorb s).Everywhere P := by
  cases s with
  | object properties _ _ _ =>
    refine ⟨Fields.nodup_keys_putAll properties hGathered.keys, ?_⟩
    refine everywhereInProperties_iff.mpr fun entry hEntry => ?_
    rcases Fields.mem_putAll hEntry with hNew | hOld
    · exact everywhereInProperties_iff.mp h.2 entry hNew
    · exact everywhereInProperties_iff.mp hGathered.properties entry hOld
  | _ => exact hGathered

/-- Merging properties keeps their keys. -/
theorem keys_mergeProperties (properties : List (String × Schema)) :
    Fields.keys (mergeProperties properties) = Fields.keys properties := by
  induction properties with
  | nil => simp [mergeProperties]
  | cons entry rest ih => rw [mergeProperties, Fields.keys_cons, Fields.keys_cons, ih]

/-- An intersection is merged into an object that has the property if its
members have it. -/
theorem everywhere_gathered (hP : MergeClosed P) {members : List Schema} {marks : Marks}
    {g : Gathered} (h : P (.intersection members marks)) (hGathered : g.Everywhere P) :
    (Schema.object g.properties g.required g.additional marks).Everywhere P :=
  ⟨hP.merged h hGathered.keys g.required g.additional, hGathered.properties⟩

mutual

/-- What holds throughout a node holds throughout the merged node. -/
theorem everywhere_merge (hP : MergeClosed P) :
    ∀ s : Schema, s.Everywhere P → s.merge.Everywhere P
  | .scalar _ _, h | .object _ _ _ _, h | .array _ _, h | .union _ _, h => by
    rw [merge]
    · exact h
    · exact fun _ _ hEq => nomatch hEq
  | .intersection members marks, h => by
    rw [merge]
    split
    · exact everywhere_gathered hP h.1
        (everywhere_mergeMembers hP members {} h.2 ⟨List.nodup_nil, trivial⟩)
    · exact h

/-- So it does throughout what a member gives. -/
theorem everywhere_mergeMember (hP : MergeClosed P) :
    ∀ s : Schema, s.Everywhere P → (mergeMember s).Everywhere P
  | .scalar _ _, h | .array _ _, h | .union _ _, h => by
    rw [mergeMember]
    · exact h
    · exact fun _ _ _ _ hEq => nomatch hEq
    · exact fun _ _ hEq => nomatch hEq
  | .object properties _ _ _, h => by
    rw [mergeMember]
    -- the keys stay, and the properties are merged themselves
    exact ⟨hP.rekeyed h.1 (keys_mergeProperties properties),
      everywhere_mergeProperties hP properties h.2⟩
  | .intersection members marks, h => by
    rw [mergeMember]
    split
    · exact everywhere_gathered hP h.1
        (everywhere_mergeMembers hP members {} h.2 ⟨List.nodup_nil, trivial⟩)
    · exact h

/-- What is gathered keeps the property while the members are taken in. -/
theorem everywhere_mergeMembers (hP : MergeClosed P) : ∀ (members : List Schema) (g : Gathered),
    EverywhereInMembers P members → g.Everywhere P → (mergeMembers members g).Everywhere P
  | [], _, _, hGathered => by
    rw [mergeMembers]
    exact hGathered
  | member :: rest, g, h, hGathered => by
    rw [mergeMembers]
    exact everywhere_mergeMembers hP rest _ h.2
      (hGathered.absorb (everywhere_mergeMember hP member h.1))

/-- And throughout merged properties. -/
theorem everywhere_mergeProperties (hP : MergeClosed P) : ∀ properties : List (String × Schema),
    EverywhereInProperties P properties → EverywhereInProperties P (mergeProperties properties)
  | [], _ => by
    rw [mergeProperties]
    trivial
  | (_, property) :: rest, h => by
    rw [mergeProperties]
    exact ⟨everywhere_merge hP property h.1, everywhere_mergeProperties hP rest h.2⟩

end

/-! ## Parts -/

/-- The object of a node has the property if it holds throughout the node. -/
theorem everywhere_object (hP : MergeClosed P) {s : Schema} (h : s.Everywhere P)
    {properties : List (String × Schema)} {guard : Option Guard}
    (hNode : s.node = .object properties guard) :
    ∃ required marks, (Schema.object properties required false marks).Everywhere P := by
  have hShaped := hNode ▸ shaped_node s
  cases hShaped with
  | @object _ required marks hMerge =>
    exact ⟨required, marks, hMerge ▸ everywhere_merge hP _ (everywhere_peel h)⟩

/-- What holds throughout a node holds throughout its parts. -/
theorem everywhere_part (hP : MergeClosed P) {s part : Schema} (h : s.Everywhere P)
    (hPart : part ∈ s.node.parts) : part.Everywhere P := by
  cases hNode : s.node with
  -- the object is the merged node, and its properties are the parts
  | object properties guard =>
    obtain ⟨required, marks, hObject⟩ := everywhere_object hP h hNode
    rw [hNode] at hPart
    obtain ⟨entry, hEntry, rfl⟩ := List.mem_map.mp hPart
    exact everywhereInProperties_iff.mp hObject.2 entry hEntry
  | loop items guard =>
    have hShaped := hNode ▸ shaped_node s
    cases hShaped with
    | loop hArray =>
      rw [hNode] at hPart
      rw [List.mem_singleton.mp hPart]
      have hItems := everywhere_peel h
      rw [hArray] at hItems
      exact hItems.2
  | _ =>
    rw [hNode] at hPart
    exact absurd hPart List.not_mem_nil

/-! ## Defaults and keys -/

/-- The node has no default. -/
def Plain (s : Schema) : Prop := s.default = none

/-- An object has the default of the intersection that it is merged from. -/
theorem plain_mergeClosed : MergeClosed Plain where
  merged := fun h _ _ _ => h
  rekeyed := fun h _ => h

/-- The keys of an object are distinct. -/
def KeysDistinct : Schema → Prop
  | .object properties _ _ _ => (Fields.keys properties).Nodup
  | _ => True

/-- What has been gathered has distinct keys, and merging keeps them. -/
theorem keysDistinct_mergeClosed : MergeClosed KeysDistinct where
  merged := fun _ hKeys _ _ => hKeys
  rekeyed := fun {_ _ _ _ _} h hKeys => by
    rw [KeysDistinct, hKeys]
    exact h

end Schema

end JsonStencil
