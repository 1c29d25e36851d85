import JsonStencil.Proofs.Everywhere
import JsonStencil.Proofs.VariantPlans

/-!
# Merging is flattening

Merging goes down through nested intersections and makes one object on every
level. The result is the same as if the objects that are met on the way were
put together at once, from left to right. These leaves are all that counts: a
member that is no object and holds none is passed over, and how the others are
grouped makes no difference. Of a key that several leaves declare, the first
one gives the place and the last one the schema, merged in its turn. So what
has been merged has nothing left to merge, and its plan is the plan of what it
was made of.

Main definitions:

* `Schema.leaves` — the objects that are met.
* `Schema.frontier` — the members in which all nesting ends.
* `Schema.FlatObject` — an object put together from leaves.

Main results:

* `mergeMembers_eq_takeAll` — members are taken in leaf by leaf.
* `leaves_eq_filter_frontier` — the leaves do not depend on the grouping.
* `merge_merge` — what has been merged stays as it is.
* `FlatObject.unique` — the leaves and the marks determine the object.
* `node_merge` — a node and what it is merged into have the same shape.
* `merge_flattens` — all of this for any intersection.
-/

namespace JsonStencil

namespace Schema

/-! ## The parts of an object -/

/-- Whether a node is an object. -/
def isObject : Schema → Bool
  | .object _ _ _ _ => true
  | _ => false

/-- The properties of an object; any other node has none. -/
def properties : Schema → List (String × Schema)
  | .object properties _ _ _ => properties
  | _ => []

/-- The keys that an object requires; any other node requires none. -/
def required : Schema → List String
  | .object _ required _ _ => required
  | _ => []

/-- Whether a node is an object that admits additional properties. -/
def additional : Schema → Bool
  | .object _ _ additional _ => additional
  | _ => false

/-- The property of an object under a key. Keys are not repeated in an object,
and if one were, its last property would count. -/
def declared (key : String) (s : Schema) : Option Schema := s.properties.reverse.lookup key

/-- Whatever is taken in, its properties are put under their keys. -/
theorem properties_absorb (g : Gathered) (s : Schema) :
    (g.absorb s).properties = Fields.putAll g.properties s.properties := by
  cases s <;> rfl

/-! ## Leaves -/

mutual

/-- The objects that are met from left to right on the way down through
intersections that merge into an object. Any other member is passed over. -/
def leaves : Schema → List Schema
  | .object properties required additional marks =>
    [.object properties required additional marks]
  | .intersection members _ => if anyObjectTyped members then leavesOfMembers members else []
  | _ => []

/-- Member by member. -/
def leavesOfMembers : List Schema → List Schema
  | [] => []
  | member :: rest => leaves member ++ leavesOfMembers rest

end

mutual

/-- What stands side by side once the brackets of all nested intersections are
left out. -/
def frontier : Schema → List Schema
  | .intersection members _ => frontierOfMembers members
  | other => [other]

/-- Member by member. -/
def frontierOfMembers : List Schema → List Schema
  | [] => []
  | member :: rest => frontier member ++ frontierOfMembers rest

end

/-- The property under a key in the last of some objects that declares it. -/
def lastDeclared (key : String) (leaves : List Schema) : Option Schema :=
  leaves.reverse.findSome? (declared key)

mutual

/-- A node merges into an object if there is an object in its frontier. -/
theorem isObjectTyped_eq_any_frontier : ∀ s : Schema, s.isObjectTyped = s.frontier.any isObject
  | .scalar _ _ | .object _ _ _ _ | .array _ _ | .union _ _ => by
    rw [frontier]
    · rfl
    · exact nofun
  | .intersection members _ => by
    rw [isObjectTyped, frontier]
    exact anyObjectTyped_eq_any_frontier members

/-- Members merge into an object if there is one in their frontier. -/
theorem anyObjectTyped_eq_any_frontier : ∀ members : List Schema,
    anyObjectTyped members = (frontierOfMembers members).any isObject
  | [] => by
    rw [frontierOfMembers]
    rfl
  | member :: rest => by
    rw [anyObjectTyped, frontierOfMembers, List.any_append, isObjectTyped_eq_any_frontier member,
      anyObjectTyped_eq_any_frontier rest]

end

mutual

/-- The leaves are the objects of the frontier, however it is grouped. -/
theorem leaves_eq_filter_frontier : ∀ s : Schema, s.leaves = s.frontier.filter isObject
  | .scalar _ _ | .object _ _ _ _ | .array _ _ | .union _ _ => by
    rw [frontier]
    · rfl
    · exact nofun
  | .intersection members _ => by
    rw [leaves, frontier]
    split
    · exact leavesOfMembers_eq_filter_frontier members
    · next hNone =>
      -- nothing is met below an intersection without an object
      rw [anyObjectTyped_eq_any_frontier, Bool.not_eq_true, List.any_eq_false] at hNone
      exact (List.filter_eq_nil_iff.mpr hNone).symm

/-- Member by member. -/
theorem leavesOfMembers_eq_filter_frontier : ∀ members : List Schema,
    leavesOfMembers members = (frontierOfMembers members).filter isObject
  | [] => by
    rw [leavesOfMembers, frontierOfMembers]
    rfl
  | member :: rest => by
    rw [leavesOfMembers, frontierOfMembers, List.filter_append, leaves_eq_filter_frontier member,
      leavesOfMembers_eq_filter_frontier rest]

end

/-! ## Merging properties -/

/-- Properties are merged one by one under their keys. -/
theorem mergeProperties_eq_map (properties : List (String × Schema)) :
    mergeProperties properties = properties.map fun entry => (entry.1, entry.2.merge) := by
  induction properties with
  | nil => rw [mergeProperties]; rfl
  | cons entry rest ih => rw [mergeProperties, ih]; rfl

/-- A merged property comes from one that was declared under its key. -/
theorem mem_mergeProperties {key : String} {property : Schema}
    {properties : List (String × Schema)} (h : (key, property) ∈ mergeProperties properties) :
    ∃ declared, (key, declared) ∈ properties ∧ property = declared.merge := by
  rw [mergeProperties_eq_map] at h
  obtain ⟨⟨_, declared⟩, hDeclared, hEntry⟩ := List.mem_map.mp h
  cases hEntry
  exact ⟨declared, hDeclared, rfl⟩

/-- Properties may be merged in parts. -/
theorem mergeProperties_append (properties others : List (String × Schema)) :
    mergeProperties (properties ++ others) =
      mergeProperties properties ++ mergeProperties others := by
  simp only [mergeProperties_eq_map, List.map_append]

/-- Under a key stands what was there, merged. -/
theorem lookup_mergeProperties (key : String) (properties : List (String × Schema)) :
    (mergeProperties properties).lookup key = (properties.lookup key).map merge := by
  induction properties with
  | nil => rw [mergeProperties]; rfl
  | cons entry rest ih =>
    rw [mergeProperties, List.lookup_cons, List.lookup_cons, ih]
    split <;> rfl

/-- The order of the properties does not matter to merging them. -/
theorem reverse_mergeProperties (properties : List (String × Schema)) :
    (mergeProperties properties).reverse = mergeProperties properties.reverse := by
  rw [mergeProperties_eq_map, mergeProperties_eq_map, List.map_reverse]

/-! ## Taking in leaves -/

/-- What has been gathered once some leaves are taken in as well. -/
def Gathered.takeAll (g : Gathered) (leaves : List Schema) : Gathered where
  properties := Fields.putAll g.properties (mergeProperties (leaves.flatMap Schema.properties))
  required := g.required ++ leaves.flatMap Schema.required
  additional := g.additional || leaves.any Schema.additional

/-- An object with everything that has been gathered. -/
def Gathered.asObject (g : Gathered) (marks : Marks) : Schema :=
  .object g.properties g.required g.additional marks

namespace Gathered

/-- No leaves add nothing. -/
theorem takeAll_nil (g : Gathered) : g.takeAll [] = g := by
  obtain ⟨properties, required, additional⟩ := g
  unfold takeAll
  rw [List.flatMap_nil, mergeProperties]
  simp [Fields.putAll]

/-- Leaves may be taken in in parts. -/
theorem takeAll_append (g : Gathered) (leaves others : List Schema) :
    g.takeAll (leaves ++ others) = (g.takeAll leaves).takeAll others := by
  unfold takeAll
  rw [List.flatMap_append, mergeProperties_append, List.flatMap_append, List.any_append,
    Fields.putAll, List.foldl_append, List.append_assoc, Bool.or_assoc]
  rfl

/-- Leaves that were put together before are taken in one by one. -/
theorem absorb_asObject (g : Gathered) (leaves : List Schema) (marks : Marks) :
    g.absorb ((({} : Gathered).takeAll leaves).asObject marks) = g.takeAll leaves := by
  have hEmpty : (Fields.keys ([] : List (String × Schema))).Nodup := List.nodup_nil
  -- what was put into nothing first and then taken over could be put at once
  have hPut := Fields.putAll_putAll g.properties hEmpty
  show Gathered.mk (Fields.putAll g.properties (Fields.putAll [] _)) _ _ = _
  rw [hPut]
  rfl

end Gathered

mutual

/-- A member is taken in leaf by leaf. -/
theorem absorb_mergeMember (g : Gathered) : ∀ s : Schema,
    g.absorb (mergeMember s) = g.takeAll s.leaves
  | .scalar _ _ | .array _ _ | .union _ _ => by
    rw [mergeMember]
    · exact g.takeAll_nil.symm
    all_goals exact nofun
  | .object properties _ _ _ => by
    rw [mergeMember, leaves]
    unfold Gathered.absorb Gathered.takeAll
    simp [Schema.properties, Schema.required, Schema.additional]
  -- the leaves of a nested intersection have been put together on their own first
  | .intersection members marks => by
    rw [mergeMember, leaves]
    split
    · rw [mergeMembers_eq_takeAll {} members]
      exact g.absorb_asObject (leavesOfMembers members) marks
    · exact g.takeAll_nil.symm

/-- Members are taken in leaf by leaf. -/
theorem mergeMembers_eq_takeAll (g : Gathered) : ∀ members : List Schema,
    mergeMembers members g = g.takeAll (leavesOfMembers members)
  | [] => by
    rw [mergeMembers, leavesOfMembers]
    exact g.takeAll_nil.symm
  | member :: rest => by
    rw [mergeMembers, leavesOfMembers, absorb_mergeMember g member, g.takeAll_append]
    exact mergeMembers_eq_takeAll _ rest

end

/-! ## What a node is merged into -/

variable {members : List Schema} {marks : Marks} {s : Schema}

/-- Only intersections with an object in them are left to merge. -/
theorem exists_of_isMergeable (h : s.isMergeable = true) :
    ∃ members marks, s = .intersection members marks ∧ anyObjectTyped members = true := by
  cases s with
  | intersection members marks =>
    rw [isMergeable] at h
    exact ⟨members, marks, rfl, h⟩
  | _ => exact absurd h Bool.false_ne_true

/-- Whatever is not left to merge stays as it is. -/
theorem merge_of_not_isMergeable (h : s.isMergeable = false) : s.merge = s := by
  cases s with
  | intersection members marks =>
    rw [isMergeable] at h
    rw [merge, h]
    rfl
  | _ =>
    rw [merge]
    exact nofun

/-- An intersection with an object in it becomes the object of its leaves. -/
theorem merge_intersection (h : anyObjectTyped members = true) (marks : Marks) :
    merge (.intersection members marks) =
      (({} : Gathered).takeAll (leavesOfMembers members)).asObject marks := by
  rw [merge, if_pos h, mergeMembers_eq_takeAll]
  rfl

/-- Nothing is left to merge in what has been merged. -/
theorem isMergeable_merge (s : Schema) : s.merge.isMergeable = false := by
  cases hMergeable : s.isMergeable with
  | true =>
    obtain ⟨members, marks, rfl, hObject⟩ := exists_of_isMergeable hMergeable
    rw [merge_intersection hObject]
    rfl
  | false =>
    rw [merge_of_not_isMergeable hMergeable]
    exact hMergeable

/-- Merging twice is merging once. -/
theorem merge_merge (s : Schema) : s.merge.merge = s.merge :=
  merge_of_not_isMergeable s.isMergeable_merge

/-- No property that has been gathered is left to merge. -/
theorem isMergeable_of_mem_takeAll (leaves : List Schema) {entry : String × Schema}
    (h : entry ∈ (({} : Gathered).takeAll leaves).properties) : entry.2.isMergeable = false := by
  rcases Fields.mem_putAll h with hNew | hNone
  · obtain ⟨declared, -, hMerged⟩ := mem_mergeProperties hNew
    rw [hMerged]
    exact declared.isMergeable_merge
  · exact absurd hNone List.not_mem_nil

/-! ## Flat objects -/

/-- An object put together from some leaves: a key stands where it first
appears, with the schema under which it was last declared. -/
structure FlatObject (leaves : List Schema) (marks : Marks) (merged : Schema) : Prop where
  object : merged.isObject = true
  keys : Fields.keys merged.properties =
    (leaves.flatMap fun leaf => Fields.keys leaf.properties).eraseDups
  property : ∀ key, merged.properties.lookup key = (lastDeclared key leaves).map merge
  required : merged.required = leaves.flatMap required
  additional : merged.additional = leaves.any additional
  marks : merged.marks = marks
  settled : ∀ entry ∈ merged.properties, entry.2.isMergeable = false

/-- Read backwards, the first property under a key is that of the last leaf to
declare it. -/
theorem lookup_reverse_flatMap (key : String) (leaves : List Schema) :
    (leaves.flatMap properties).reverse.lookup key = lastDeclared key leaves := by
  induction leaves with
  | nil => rfl
  | cons leaf rest ih =>
    rw [lastDeclared, List.reverse_cons, List.findSome?_append, List.flatMap_cons,
      List.findSome?_singleton, List.reverse_append, List.lookup_append, ih]
    rfl

/-- Taking in leaves puts a flat object together. -/
theorem flatObject_takeAll (leaves : List Schema) (marks : Marks) :
    FlatObject leaves marks ((({} : Gathered).takeAll leaves).asObject marks) where
  object := rfl
  keys := by
    show Fields.keys (Fields.ofPairs (mergeProperties (leaves.flatMap Schema.properties))) = _
    rw [Fields.keys_ofPairs, keys_mergeProperties, Fields.keys, List.map_flatMap]
    rfl
  -- later properties replace earlier ones, and merging each does not change that
  property := fun key => by
    show (Fields.putAll [] (mergeProperties (leaves.flatMap Schema.properties))).lookup key = _
    rw [Fields.lookup_putAll, reverse_mergeProperties, lookup_mergeProperties,
      lookup_reverse_flatMap]
    exact Option.or_none
  required := List.nil_append _
  additional := Bool.false_or _
  marks := rfl
  settled := fun _ hEntry => isMergeable_of_mem_takeAll leaves hEntry

/-- An intersection with an object in it becomes the flat object of its leaves. -/
theorem flatObject_merge (h : anyObjectTyped members = true) (marks : Marks) :
    FlatObject (leavesOfMembers members) marks (merge (.intersection members marks)) := by
  rw [merge_intersection h]
  exact flatObject_takeAll (leavesOfMembers members) marks

namespace FlatObject

variable {leaves : List Schema} {t : Schema}

/-- No key is repeated in it. -/
theorem nodup_keys (h : FlatObject leaves marks s) : (Fields.keys s.properties).Nodup := by
  have hPut : (leaves.flatMap fun leaf => Fields.keys leaf.properties) =
      Fields.keys (leaves.flatMap properties) := List.map_flatMap.symm
  rw [h.keys, hPut, ← Fields.keys_ofPairs]
  exact Fields.nodup_keys_putAll _ List.nodup_nil

/-- There is one flat object of some leaves under the same marks. -/
theorem unique (h : FlatObject leaves marks s) (hOther : FlatObject leaves marks t) : s = t := by
  have hProperties : s.properties = t.properties :=
    Fields.eq_of_lookup h.nodup_keys (h.keys.trans hOther.keys.symm)
      fun key => (h.property key).trans (hOther.property key).symm
  have hRequired := h.required.trans hOther.required.symm
  have hAdditional := h.additional.trans hOther.additional.symm
  have hMarks := h.marks.trans hOther.marks.symm
  -- two objects with the same parts
  cases s with
  | object =>
    cases t with
    | object =>
      rw [object.injEq]
      exact ⟨hProperties, hRequired, hAdditional, hMarks⟩
    | _ => exact absurd hOther.object Bool.false_ne_true
  | _ => exact absurd h.object Bool.false_ne_true

end FlatObject

/-- Intersections with the same frontier are merged into the same object. -/
theorem merge_regrouped {others : List Schema}
    (h : frontierOfMembers others = frontierOfMembers members)
    (hObject : anyObjectTyped members = true) (marks : Marks) :
    merge (.intersection others marks) = merge (.intersection members marks) := by
  -- the frontier tells whether there is an object, and which objects there are
  have hOthers : anyObjectTyped others = true := by
    rw [anyObjectTyped_eq_any_frontier] at hObject ⊢
    rw [h]
    exact hObject
  have hLeaves : leavesOfMembers others = leavesOfMembers members := by
    rw [leavesOfMembers_eq_filter_frontier, leavesOfMembers_eq_filter_frontier, h]
  exact (flatObject_merge hOthers marks).unique (hLeaves ▸ flatObject_merge hObject marks)

/-! ## Shapes and plans -/

/-- A node and what it is merged into have the same shape. -/
theorem node_merge (s : Schema) : s.merge.node = s.node := by
  cases hMergeable : s.isMergeable with
  | true =>
    obtain ⟨members, marks, rfl, hObject⟩ := exists_of_isMergeable hMergeable
    -- both are looked at through the merged node
    have hShape : (intersection members marks).node =
        objectNode (.intersection members marks) (Guard.of? false false "null") :=
      if_pos hObject
    have hMerged : (merge (.intersection members marks)).node =
        objectNode (merge (.intersection members marks)) (Guard.of? false false "null") := by
      rw [merge_intersection hObject]
      rfl
    rw [hShape, hMerged, objectNode, objectNode, merge_merge]
  | false => rw [merge_of_not_isMergeable hMergeable]

/-- **Merging flattens.** An intersection without an object in it stays as it
is. Any other becomes the flat object of its leaves under its own default and
optional marker, however the same members are grouped into nested
intersections. Merging twice is merging once, and a schema has the plan of what
it is merged into. -/
theorem merge_flattens :
    (∀ (members : List Schema) (marks : Marks),
      let whole := Schema.intersection members marks
      (whole.isObjectTyped = false → whole.merge = whole) ∧
      (whole.isObjectTyped = true →
        FlatObject whole.leaves whole.marks whole.merge ∧
        ∀ others, frontierOfMembers others = frontierOfMembers members →
          merge (.intersection others marks) = whole.merge)) ∧
    ∀ s : Schema, s.merge.merge = s.merge ∧ Plan.ofSchema s.merge = Plan.ofSchema s := by
  refine ⟨fun members marks => ⟨fun hNone => ?_, fun hObject => ?_⟩, fun s => ?_⟩
  · rw [isObjectTyped] at hNone
    exact merge_of_not_isMergeable hNone
  · rw [isObjectTyped] at hObject
    refine ⟨?_, fun others hSame => merge_regrouped hSame hObject marks⟩
    -- the leaves are those that the merge gathers, in their order
    rw [leaves, if_pos hObject]
    exact flatObject_merge hObject marks
  · exact ⟨s.merge_merge, ofSchema_eq_of_node s.node_merge⟩

/-- Three objects and a string, two of the objects in an intersection of their
own: the last one declares a key of the first again, and the first one has an
intersection for a property. -/
theorem merge_flattens_nested :
    let number := Schema.scalar .number {}
    let seven := Schema.scalar .number { default := some (.number (.integer 7)) }
    let pair := Schema.intersection
      [.object [("x", number)] ["x"] false {}, .object [("y", number)] [] false {}] {}
    let first := Schema.object [("k", .scalar (.string none) {}), ("n", pair)] ["k"] false {}
    let second := Schema.object [("m", number)] ["m"] true {}
    let third := Schema.object [("k", seven)] ["k"] false {}
    let text := Schema.scalar (.string none) {}
    let marks : Marks := { optional := true }
    let whole := Schema.intersection [first, text, .intersection [second, third] {}] marks
    whole.leaves = [first, second, third] ∧
      whole.merge = .object [("k", seven), ("n", pair.merge), ("m", number)] ["k", "m", "k"] true
        marks ∧
      Schema.merge (.intersection [.intersection [first, text, second] {}, third] marks) =
        whole.merge ∧
      Plan.ofSchema whole.merge = Plan.ofSchema whole := by
  intro number seven pair first second third text marks whole
  obtain ⟨hFlat, hPlan⟩ := merge_flattens
  -- the same leaves in another grouping
  obtain ⟨-, hRegroup⟩ := (hFlat [first, text, .intersection [second, third] {}] marks).2 rfl
  exact ⟨rfl, rfl, hRegroup _ rfl, (hPlan whole).2⟩

end Schema

end JsonStencil
