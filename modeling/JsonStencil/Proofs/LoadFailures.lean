import JsonStencil.Proofs.LoadedSchemas

/-!
# Where loading fails

A document in typed form can still fail to have a schema, in two ways: a
composition may have no members, and an array may say nothing of its items.
Only nodes that are visited count. A node with `anyOf` is visited through its
members and nothing else, one with `allOf` and without `anyOf` likewise, and
any other node under each of its type names in turn: an object through its
properties, an array through the one document of its items. What stands under
keywords that are overruled, under `additionalProperties`, `patternProperties`
and `prefixItems`, and the items of a tuple are never looked at.

The visits of a document make a tree. Going through it depth first lists all
defects that are reached, and loading fails with the first one of that list,
under the path that leads to its node.

Main definitions:

* `Document.Defect` — what may be wrong with a node.
* `Document.turns` / `Document.defects` — the visit of a node and the defects
  below it in order.
* `Document.Visits` / `Document.Reaches` / `Document.HasDefect` — which nodes
  are visited and which of them are defective, said keyword by keyword.

Main results:

* `Document.mem_defects` — the listed defects are those of the nodes reached.
* `Schema.failure?_ofDocumentAt` — loading fails with the first defect.
* `Schema.ofDocumentJson_fails_iff` — both together for a JSON value.
-/

namespace JsonStencil

namespace Document

/-! ## Visits -/

/-- What may be wrong with a node itself. -/
inductive Defect where
  /-- An array says nothing of its items. -/
  | missingItems
  /-- A composition has no members. -/
  | empty (keyword : Composition)
deriving DecidableEq, Repr

/-- The error that a defect is reported as. -/
def Defect.error (path : List String) : Defect → LoadError
  | .missingItems => .missingItems path
  | .empty keyword => .emptyComposition keyword path

/-- The wording of a defect at a place. -/
def Defect.wording (place : String) : Defect → String
  | .missingItems => "array schema at " ++ place ++ " has no `items`"
  | .empty keyword => "`" ++ keyword.name ++ "` at " ++ place ++ " must not be empty"

/-- The type names under which a node is taken that composes nothing. -/
def names (d : Document) : List String :=
  match d.type with
  | some (.one name) => [name]
  | some (.many names) => names
  -- a node without a type is an object if it declares properties
  | none => if d.properties.isSome || d.patternProperties.isSome then ["object"] else []

/-- One turn in the visit of a node: a defect of its own, or a document below
it and the way there. -/
inductive Turn where
  | defect (what : Defect)
  | below (way : List String) (node : Document)

/-- The turns of a composition: its members in order, of which there must be
one. -/
def compositionTurns (keyword : Composition) (members : List Document) : List Turn :=
  if members = [] then [.defect (.empty keyword)]
  else members.zipIdx.map fun (member : Document × Nat) =>
    .below [keyword.name, toString member.2] member.1

/-- The turns of a node that is taken under a type name. -/
def turnsAs (d : Document) (name : String) : List Turn :=
  if name = "object" then
    (d.properties.getD []).map fun property => .below ["properties", property.1] property.2
  else if name = "array" then
    match d.items, d.prefixItems with
    | some (.one items), none => [.below ["items"] items]
    | none, none => [.defect .missingItems]
    | _, _ => []
  else []

/-- The visit of a node. -/
def turns (d : Document) : List Turn :=
  match d.anyOf, d.allOf with
  | some members, _ => compositionTurns .anyOf members
  | none, some members => compositionTurns .allOf members
  | none, none => d.names.flatMap d.turnsAs

/-! ## Visited nodes, keyword by keyword -/

/-- A node is visited from another one, on a way. -/
inductive Visits : Document → List String → Document → Prop where
  | anyOf {d node : Document} {members : List Document} {position : Nat}
      (composes : d.anyOf = some members) (found : members[position]? = some node) :
      Visits d ["anyOf", toString position] node
  | allOf {d node : Document} {members : List Document} {position : Nat}
      (noChoice : d.anyOf = none) (composes : d.allOf = some members)
      (found : members[position]? = some node) : Visits d ["allOf", toString position] node
  | items {d node : Document} (noChoice : d.anyOf = none) (noJoin : d.allOf = none)
      (named : "array" ∈ d.names) (found : d.items = some (.one node))
      (noTuple : d.prefixItems = none) : Visits d ["items"] node
  | property {d node : Document} {properties : List (String × Document)} {key : String}
      (noChoice : d.anyOf = none) (noJoin : d.allOf = none) (named : "object" ∈ d.names)
      (declares : d.properties = some properties) (found : (key, node) ∈ properties) :
      Visits d ["properties", key] node

/-- A node is reached from a document by visits, the ways one behind the
other. -/
inductive Reaches : Document → List String → Document → Prop where
  | here {d : Document} : Reaches d [] d
  | step {d next node : Document} {way path : List String} (visits : Visits d way next)
      (reaches : Reaches next path node) : Reaches d (way ++ path) node

/-- What is wrong with a node itself. -/
inductive HasDefect : Document → Defect → Prop where
  | anyOf {d : Document} (composes : d.anyOf = some []) : HasDefect d (.empty .anyOf)
  | allOf {d : Document} (noChoice : d.anyOf = none) (composes : d.allOf = some []) :
      HasDefect d (.empty .allOf)
  | items {d : Document} (noChoice : d.anyOf = none) (noJoin : d.allOf = none)
      (named : "array" ∈ d.names) (noItems : d.items = none) (noTuple : d.prefixItems = none) :
      HasDefect d .missingItems

/-! ## The turns are the visits and the defects -/

/-- A composition without members is defective, any other visits each of them.
-/
theorem mem_compositionTurns {keyword : Composition} {members : List Document} {turn : Turn} :
    turn ∈ compositionTurns keyword members ↔
      members = [] ∧ turn = .defect (.empty keyword) ∨
        ∃ (position : Nat) (node : Document), members[position]? = some node ∧
          turn = .below [keyword.name, toString position] node := by
  rw [compositionTurns]
  split
  · next hEmpty =>
    rw [List.mem_singleton, hEmpty]
    simp
  · next hSome =>
    rw [List.mem_map]
    -- without members there is a defect, and otherwise each one is visited at its position
    constructor
    · rintro ⟨⟨node, position⟩, hMember, rfl⟩
      exact Or.inr ⟨position, node, List.mem_zipIdx_iff_getElem?.mp hMember, rfl⟩
    · rintro (⟨hEmpty, -⟩ | ⟨position, node, hFound, rfl⟩)
      · exact absurd hEmpty hSome
      · exact ⟨(node, position), List.mem_zipIdx_iff_getElem?.mpr hFound, rfl⟩

/-- An object visits its properties and an array its items, which it must have.
-/
theorem mem_turnsAs {d : Document} {name : String} {turn : Turn} :
    turn ∈ d.turnsAs name ↔
      (name = "object" ∧ ∃ properties key node, d.properties = some properties ∧
        (key, node) ∈ properties ∧ turn = .below ["properties", key] node) ∨
      (name = "array" ∧ d.prefixItems = none ∧
        (d.items = none ∧ turn = .defect .missingItems ∨
          ∃ node, d.items = some (.one node) ∧ turn = .below ["items"] node)) := by
  rw [turnsAs]
  split
  · next hObject =>
    have hArray : name ≠ "array" := by
      rintro rfl
      exact absurd hObject (by decide)
    -- an object is visited under each of its properties
    cases hProperties : d.properties with
    | none => simp [hArray]
    | some properties =>
      rw [Option.getD_some, List.mem_map]
      constructor
      · rintro ⟨⟨key, node⟩, hMember, rfl⟩
        exact Or.inl ⟨hObject, properties, key, node, rfl, hMember, rfl⟩
      · rintro (⟨-, _, key, node, hSame, hMember, rfl⟩ | ⟨hName, -⟩)
        · cases hSame
          exact ⟨(key, node), hMember, rfl⟩
        · exact absurd hName hArray
  · next hObject =>
    split
    · next hArray =>
      split
      · next items hItems hTuple => simp [hArray, hItems, hTuple]
      · next hItems hTuple => simp [hArray, hItems, hTuple]
      · next hNotOne hNotNone =>
        -- a tuple has no turns, whichever of the two keywords makes it one
        refine ⟨fun hTurn => absurd hTurn List.not_mem_nil, ?_⟩
        rintro (⟨hName, -⟩ | ⟨-, hTuple, ⟨hItems, -⟩ | ⟨node, hItems, -⟩⟩)
        · exact absurd hName hObject
        · exact absurd hTuple (hNotNone hItems)
        · exact absurd hTuple (hNotOne node hItems)
    · next hArray => simp [hObject, hArray]

/-- The defects among the turns are those of the node. -/
theorem defect_mem_turns {d : Document} {what : Defect} :
    .defect what ∈ d.turns ↔ d.HasDefect what := by
  constructor
  · intro h
    -- by the keyword that decides: `anyOf`, then `allOf`, then the type
    rw [turns] at h
    split at h
    · next hAnyOf =>
      obtain ⟨rfl, hTurn⟩ | ⟨_, _, _, hTurn⟩ := mem_compositionTurns.mp h <;> cases hTurn
      exact .anyOf hAnyOf
    · next hAnyOf hAllOf =>
      obtain ⟨rfl, hTurn⟩ | ⟨_, _, _, hTurn⟩ := mem_compositionTurns.mp h <;> cases hTurn
      exact .allOf hAnyOf hAllOf
    · next hAnyOf hAllOf =>
      obtain ⟨name, hName, hTurn⟩ := List.mem_flatMap.mp h
      obtain ⟨-, _, _, _, -, -, hOther⟩ | ⟨rfl, hTuple, ⟨hItems, hOwn⟩ | ⟨_, -, hOther⟩⟩ :=
        mem_turnsAs.mp hTurn
      · cases hOther
      · cases hOwn
        exact .items hAnyOf hAllOf hName hItems hTuple
      · cases hOther
  · intro h
    -- and each defect is listed where its keyword decides
    cases h with
    | anyOf composes =>
      rw [turns, composes]
      exact mem_compositionTurns.mpr (Or.inl ⟨rfl, rfl⟩)
    | allOf noChoice composes =>
      rw [turns, noChoice, composes]
      exact mem_compositionTurns.mpr (Or.inl ⟨rfl, rfl⟩)
    | items noChoice noJoin named noItems noTuple =>
      rw [turns, noChoice, noJoin]
      exact List.mem_flatMap.mpr ⟨"array", named,
        mem_turnsAs.mpr (Or.inr ⟨rfl, noTuple, Or.inl ⟨noItems, rfl⟩⟩)⟩

/-- The documents among the turns are the nodes visited. -/
theorem below_mem_turns {d node : Document} {way : List String} :
    .below way node ∈ d.turns ↔ Visits d way node := by
  constructor
  · intro h
    -- by the keyword that decides, as for defects
    rw [turns] at h
    split at h
    · next hAnyOf =>
      obtain ⟨-, hTurn⟩ | ⟨_, _, hFound, hTurn⟩ := mem_compositionTurns.mp h <;> cases hTurn
      exact .anyOf hAnyOf hFound
    · next hAnyOf hAllOf =>
      obtain ⟨-, hTurn⟩ | ⟨_, _, hFound, hTurn⟩ := mem_compositionTurns.mp h <;> cases hTurn
      exact .allOf hAnyOf hAllOf hFound
    · next hAnyOf hAllOf =>
      obtain ⟨name, hName, hTurn⟩ := List.mem_flatMap.mp h
      obtain ⟨rfl, _, _, _, hDeclares, hFound, hProperty⟩ |
          ⟨rfl, hTuple, ⟨-, hOther⟩ | ⟨_, hItems, hItem⟩⟩ := mem_turnsAs.mp hTurn
      · cases hProperty
        exact .property hAnyOf hAllOf hName hDeclares hFound
      · cases hOther
      · cases hItem
        exact .items hAnyOf hAllOf hName hItems hTuple
  · intro h
    -- and each visit is listed where its keyword decides
    cases h with
    | anyOf composes found =>
      rw [turns, composes]
      exact mem_compositionTurns.mpr (Or.inr ⟨_, _, found, rfl⟩)
    | allOf noChoice composes found =>
      rw [turns, noChoice, composes]
      exact mem_compositionTurns.mpr (Or.inr ⟨_, _, found, rfl⟩)
    | items noChoice noJoin named found noTuple =>
      rw [turns, noChoice, noJoin]
      exact List.mem_flatMap.mpr ⟨"array", named,
        mem_turnsAs.mpr (Or.inr ⟨rfl, noTuple, Or.inr ⟨_, found, rfl⟩⟩)⟩
    | property noChoice noJoin named declares found =>
      rw [turns, noChoice, noJoin]
      exact List.mem_flatMap.mpr ⟨"object", named,
        mem_turnsAs.mpr (Or.inl ⟨rfl, _, _, _, declares, found, rfl⟩)⟩

/-- A node visited is a part of the document. -/
theorem Visits.sizeOf_lt {d node : Document} {way : List String} (h : Visits d way node) :
    sizeOf node < sizeOf d := by
  obtain ⟨type, properties, required, additionalProperties, patternProperties, items, prefixItems,
    anyOf, allOf, default, format⟩ := d
  -- what is visited is a part of one field
  rw [mk.sizeOf_spec]
  cases h with
  | anyOf composes found =>
    have hMember := List.sizeOf_lt_of_mem (List.mem_of_getElem? found)
    cases composes
    rw [Option.some.sizeOf_spec]
    omega
  | allOf noChoice composes found =>
    have hMember := List.sizeOf_lt_of_mem (List.mem_of_getElem? found)
    cases composes
    rw [Option.some.sizeOf_spec]
    omega
  | items noChoice noJoin named found noTuple =>
    cases found
    rw [Option.some.sizeOf_spec, ItemForms.one.sizeOf_spec]
    omega
  | property noChoice noJoin named declares found =>
    have hEntry := List.sizeOf_lt_of_mem found
    rw [Prod.mk.sizeOf_spec] at hEntry
    cases declares
    rw [Option.some.sizeOf_spec]
    omega

/-! ## The defects of a document in order -/

/-- The defects that are reached from a document, depth first, each under the
way to its node. -/
def defects (d : Document) : List (List String × Defect) :=
  d.turns.attach.flatMap fun turn =>
    match _h : turn.1 with
    | .defect what => [([], what)]
    | .below way node => (defects node).map fun found => (way ++ found.1, found.2)
termination_by sizeOf d
decreasing_by exact (below_mem_turns.mp (_h ▸ turn.2)).sizeOf_lt

/-- The defects that a turn adds. -/
def Turn.found : Turn → List (List String × Defect)
  | .defect what => [([], what)]
  | .below way node => node.defects.map fun found => (way ++ found.1, found.2)

/-- The defects of a document are those its turns add, in order. -/
theorem defects_eq (d : Document) : d.defects = d.turns.flatMap Turn.found := by
  rw [defects]
  have hTurn (turn : { turn // turn ∈ d.turns }) :
      (match _h : turn.1 with
        | .defect what => [([], what)]
        | .below way node => node.defects.map fun found => (way ++ found.1, found.2)) =
        turn.1.found := by
    obtain ⟨turn, hMem⟩ := turn
    cases turn <;> rfl
  simp only [hTurn]
  rw [← List.flatMap_map, List.attach_map_subtype_val]

/-- The listed defects are those of the nodes that are reached. -/
theorem mem_defects {d : Document} {path : List String} {what : Defect} :
    (path, what) ∈ d.defects ↔ ∃ node, Reaches d path node ∧ HasDefect node what := by
  constructor
  · intro h
    rw [defects_eq] at h
    obtain ⟨turn, hTurn, hFound⟩ := List.mem_flatMap.mp h
    cases turn with
    | defect own =>
      cases List.mem_singleton.mp hFound
      exact ⟨d, .here, defect_mem_turns.mp hTurn⟩
    | below way next =>
      have hVisits := below_mem_turns.mp hTurn
      obtain ⟨⟨rest, inner⟩, hInner, hSame⟩ := List.mem_map.mp hFound
      cases hSame
      obtain ⟨node, hReaches, hDefect⟩ := mem_defects.mp hInner
      exact ⟨node, .step hVisits hReaches, hDefect⟩
  · rintro ⟨node, hReaches, hDefect⟩
    induction hReaches with
    -- along the way to the node, from its end
    | here =>
      rw [defects_eq]
      exact List.mem_flatMap.mpr ⟨.defect what, defect_mem_turns.mpr hDefect,
        List.mem_singleton_self _⟩
    | step hVisits _ ih =>
      rw [defects_eq]
      exact List.mem_flatMap.mpr ⟨.below _ _, below_mem_turns.mpr hVisits,
        List.mem_map.mpr ⟨_, ih hDefect, rfl⟩⟩
termination_by sizeOf d
decreasing_by exact hVisits.sizeOf_lt

/-- The error of the first of some defects, met under a path. -/
def report (path : List String) (found : List (List String × Defect)) : Option LoadError :=
  found.head?.map fun first => first.2.error (path ++ first.1)

/-- The first of some defects is among the earlier ones, if there are any. -/
theorem report_append (path : List String) (first second : List (List String × Defect)) :
    report path (first ++ second) = (report path first).or (report path second) := by
  rw [report, report, report, List.head?_append, Option.map_or]

/-- What is met on a way counts under the path with the way behind it. -/
theorem report_below (path way : List String) (found : List (List String × Defect)) :
    report path (found.map fun inner => (way ++ inner.1, inner.2)) = report (path ++ way) found := by
  cases found with
  | nil => rfl
  | cons first rest =>
    rw [List.map_cons, report, report, List.head?_cons, List.head?_cons, Option.map_some,
      Option.map_some, List.append_assoc]

end Document

/-! ## Loading fails with the first defect -/

namespace Schema

open Document

/-- Loading a node fails with the first defect that is reached from it. -/
def FailsFirst (d : Document) : Prop :=
  ∀ path, failure? (ofDocumentAt path d) = report path d.defects

/-- Members are loaded in order, so the first defect is that of the first member
that has one. -/
theorem failure?_membersAt {keyword : Composition} {path : List String} {members : List Document}
    (hMembers : ∀ member ∈ members, FailsFirst member) (position : Nat) :
    failure? (membersAt (path ++ [keyword.name]) position members) =
      report path (((members.zipIdx position).map fun (member : Document × Nat) =>
        Turn.below [keyword.name, toString member.2] member.1).flatMap Turn.found) := by
  -- the position counts on from member to member
  induction members generalizing position with
  | nil => rfl
  | cons first rest ih =>
    obtain ⟨hFirst, hRest⟩ := List.forall_mem_cons.mp hMembers
    rw [membersAt, failure?_bind, hFirst, ih hRest, List.zipIdx_cons, List.map_cons,
      List.flatMap_cons, report_append, Turn.found, report_below, List.append_assoc,
      List.singleton_append]

/-- A composition fails for want of members, or with the first defect of one. -/
theorem failure?_compositionAt {keyword : Composition} {path : List String}
    {members : List Document} (hMembers : ∀ member ∈ members, FailsFirst member) :
    failure? (compositionAt keyword path members) =
      report path ((compositionTurns keyword members).flatMap Turn.found) := by
  -- an empty list fails by itself, and any other with the first failure of a member
  cases members with
  | nil =>
    rw [compositionAt, compositionTurns, if_pos rfl, List.flatMap_singleton, Turn.found, report,
      List.head?_cons, Option.map_some, List.append_nil]
    rfl
  | cons first rest =>
    obtain ⟨hFirst, hRest⟩ := List.forall_mem_cons.mp hMembers
    have hZero : toString (0 : Nat) = "0" := rfl
    rw [compositionAt, failure?_bind, hFirst, failure?_membersAt hRest, compositionTurns,
      if_neg (List.cons_ne_nil _ _), List.zipIdx_cons, List.map_cons, List.flatMap_cons,
      report_append, Turn.found, report_below, hZero]

/-- Properties are loaded in order as well. -/
theorem failure?_propertiesAt {properties : List (String × Document)}
    (hProperties : ∀ property ∈ properties, FailsFirst property.2) (required path : List String) :
    failure? (propertiesAt required path properties) =
      report path ((properties.map fun property =>
        Turn.below ["properties", property.1] property.2).flatMap Turn.found) := by
  induction properties with
  | nil => rfl
  | cons first rest ih =>
    obtain ⟨hFirst, hRest⟩ := List.forall_mem_cons.mp hProperties
    obtain ⟨key, property⟩ := first
    rw [propertiesAt, List.map_cons, List.flatMap_cons, report_append, Turn.found, report_below,
      ← ih hRest, ← hFirst]
    exact failure?_bind _ _ _

/-- A node under a type name fails with the first defect of its turns. -/
theorem failure?_namedAt {d : Document} {name : String}
    (hBelow : ∀ way node, Turn.below way node ∈ d.turnsAs name → FailsFirst node)
    (path : List String) (marks : Marks) :
    failure? (namedAt path d name marks) = report path ((d.turnsAs name).flatMap Turn.found) := by
  by_cases hObject : name = "object"
  · -- the object itself cannot fail, only its properties can
    rw [namedAt, turnsAs, if_pos hObject, if_pos hObject]
    cases hDeclared : d.properties with
    | none => rfl
    | some properties =>
      have hProperties : ∀ property ∈ properties, FailsFirst property.2 := fun property hMem =>
        hBelow _ _ (mem_turnsAs.mpr
          (Or.inl ⟨hObject, properties, property.1, property.2, hDeclared, hMem, rfl⟩))
      rw [Option.getD_some, ← failure?_propertiesAt hProperties (d.required.getD []) path]
      exact failure?_map _ _
  by_cases hArray : name = "array"
  · rw [namedAt, turnsAs, if_neg hObject, if_neg hObject, if_pos hArray, if_pos hArray]
    cases hItems : d.items with
    | none =>
      cases hTuple : d.prefixItems with
      | none =>
        show some (LoadError.missingItems path) = report path [([], Defect.missingItems)]
        rw [report, List.head?_cons, Option.map_some, List.append_nil]
        rfl
      -- a tuple is never looked into
      | some others => rfl
    | some form =>
      cases form with
      | one items =>
        cases hTuple : d.prefixItems with
        | none =>
          have hNode : FailsFirst items := hBelow ["items"] items
            (mem_turnsAs.mpr (Or.inr ⟨hArray, hTuple, Or.inr ⟨items, hItems, rfl⟩⟩))
          show failure? (ofDocumentAt (path ++ ["items"]) items >>= fun loaded =>
            Except.ok (Schema.array loaded marks)) = _
          rw [failure?_map, hNode, List.flatMap_singleton, Turn.found, report_below]
        | some others => rfl
      | tuple items => rfl
  · rw [namedAt, turnsAs, if_neg hObject, if_neg hObject, if_neg hArray, if_neg hArray]
    rfl

/-- Several type names are tried in turn. -/
theorem failure?_mapM_namedAt {d : Document} {names : List String}
    (hBelow : ∀ name ∈ names, ∀ way node, Turn.below way node ∈ d.turnsAs name → FailsFirst node)
    (path : List String) (marks : Marks) :
    failure? (names.mapM fun name => namedAt path d name marks) =
      report path ((names.flatMap d.turnsAs).flatMap Turn.found) := by
  induction names with
  | nil => rfl
  | cons name rest ih =>
    obtain ⟨hFirst, hRest⟩ := List.forall_mem_cons.mp hBelow
    rw [List.mapM_cons, List.flatMap_cons, List.flatMap_append, report_append,
      ← failure?_namedAt hFirst path marks, ← ih hRest]
    exact failure?_bind _ _ _

/-- A node that composes nothing fails with the first defect of its turns,
whether it has one type name, several or none. -/
theorem failure?_ofNames {d : Document} (hAnyOf : d.anyOf = none) (hAllOf : d.allOf = none)
    (hNamed : ∀ name ∈ d.names, ∀ way node, Turn.below way node ∈ d.turnsAs name →
      FailsFirst node) (path : List String) :
    failure? (ofDocumentAt path d) =
      report path ((d.names.flatMap d.turnsAs).flatMap Turn.found) := by
  rw [ofDocumentAt_eq, hAnyOf, hAllOf]
  -- a single name takes the node as it is, several make a union of it
  cases hType : d.type with
  | some type =>
    cases type with
    | one name =>
      have hNames : d.names = [name] := by rw [names, hType]
      rw [hNames] at hNamed ⊢
      rw [List.flatMap_singleton]
      exact failure?_namedAt (hNamed name (List.mem_singleton_self name)) path _
    | many several =>
      have hNames : d.names = several := by rw [names, hType]
      rw [hNames] at hNamed ⊢
      rw [← failure?_mapM_namedAt hNamed path {}]
      exact failure?_map _ _
  | none =>
    dsimp only
    split
    · next hShape =>
      -- without a type the shape may tell an object
      have hNames : d.names = ["object"] := by
        rw [names, hType]
        exact if_pos hShape
      rw [hNames] at hNamed ⊢
      rw [List.flatMap_singleton]
      exact failure?_namedAt (hNamed "object" (List.mem_singleton_self _)) path _
    · next hShape =>
      have hNames : d.names = [] := by
        rw [names, hType]
        exact if_neg hShape
      rw [hNames]
      rfl

/-- Loading a node fails with the first defect that is reached from it. -/
theorem failure?_ofDocumentAt (d : Document) : FailsFirst d := by
  intro path
  -- the induction: nodes that are visited fail with their own first defect
  have hVisited (way : List String) (node : Document) (hVisits : d.Visits way node) :
      FailsFirst node := failure?_ofDocumentAt node
  rw [defects_eq]
  cases hAnyOf : d.anyOf with
  | some members =>
    have hMembers : ∀ member ∈ members, FailsFirst member := by
      intro member hMem
      obtain ⟨position, hFound⟩ := List.mem_iff_getElem?.mp hMem
      exact hVisited _ member (.anyOf hAnyOf hFound)
    rw [ofDocumentAt_eq, turns, hAnyOf, ← failure?_compositionAt hMembers]
    exact failure?_map _ _
  | none =>
    cases hAllOf : d.allOf with
    | some members =>
      have hMembers : ∀ member ∈ members, FailsFirst member := by
        intro member hMem
        obtain ⟨position, hFound⟩ := List.mem_iff_getElem?.mp hMem
        exact hVisited _ member (.allOf hAnyOf hAllOf hFound)
      rw [ofDocumentAt_eq, turns, hAnyOf, hAllOf, ← failure?_compositionAt hMembers]
      exact failure?_map _ _
    | none =>
      have hTurns : d.turns = d.names.flatMap d.turnsAs := by rw [turns, hAnyOf, hAllOf]
      rw [hTurns]
      refine failure?_ofNames hAnyOf hAllOf ?_ path
      intro name hName way node hMem
      refine hVisited way node (below_mem_turns.mp ?_)
      rw [hTurns]
      exact List.mem_flatMap.mpr ⟨name, hName, hMem⟩
termination_by sizeOf d
decreasing_by exact hVisits.sizeOf_lt

/-! ## Loading a JSON value -/

/-- A JSON value whose typed form is known is loaded as that form. -/
theorem ofDocumentJson_of_ofJson {value : Json} {d : Document} (h : Document.ofJson value = .ok d) :
    ofDocumentJson value = ofDocument d := by
  rw [ofDocumentJson, h]
  rfl

/-- A JSON value that has a typed form fails to load exactly if a defective
node is reached from it. It fails with the first defect, depth first, under
the path of its node; the defects are those of the nodes reached; and the
wording of a failure names the place by the ways that lead to it. -/
theorem ofDocumentJson_fails_iff {value : Json} {d : Document}
    (h : Document.ofJson value = .ok d) :
    ((∃ e, ofDocumentJson value = .error e) ↔
      ∃ path node what, d.Reaches path node ∧ node.HasDefect what) ∧
    (∀ e, ofDocumentJson value = .error e ↔
      ∃ path what, d.defects.head? = some (path, what) ∧ e = what.error path) ∧
    (∀ path what, (path, what) ∈ d.defects ↔
      ∃ node, d.Reaches path node ∧ node.HasDefect what) ∧
    ∀ path (what : Defect), (what.error path).message =
      what.wording ("#" ++ String.join (path.map ("/" ++ ·))) := by
  -- the loader stops at the first defect that it comes to
  have hFirst (e : LoadError) : ofDocumentJson value = .error e ↔
      ∃ path what, d.defects.head? = some (path, what) ∧ e = what.error path := by
    rw [ofDocumentJson_of_ofJson h, ← failure?_eq_some, ofDocument, failure?_ofDocumentAt d [],
      report, Option.map_eq_some_iff]
    constructor
    · rintro ⟨⟨path, what⟩, hHead, rfl⟩
      exact ⟨path, what, hHead, rfl⟩
    · rintro ⟨path, what, hHead, rfl⟩
      exact ⟨(path, what), hHead, rfl⟩
  refine ⟨⟨?_, ?_⟩, hFirst, fun _ _ => mem_defects, ?_⟩
  · rintro ⟨e, hError⟩
    obtain ⟨path, what, hHead, -⟩ := (hFirst e).mp hError
    obtain ⟨node, hReaches, hDefect⟩ := mem_defects.mp (List.mem_of_head? hHead)
    exact ⟨path, node, what, hReaches, hDefect⟩
  · rintro ⟨path, node, what, hReaches, hDefect⟩
    -- a defect that is reached is listed, so the list has a first one
    have hListed : (path, what) ∈ d.defects := mem_defects.mpr ⟨node, hReaches, hDefect⟩
    cases hDefects : d.defects with
    | nil => exact absurd (hDefects ▸ hListed) List.not_mem_nil
    | cons first rest =>
      exact ⟨_, (hFirst _).mpr ⟨first.1, first.2, by rw [hDefects]; rfl, rfl⟩⟩
  · intro path what
    cases what <;> rfl

/-- An object or an array without items, with a property that is a string or
an array without items. Other properties would have to be a choice of
nothing, which is never looked at. -/
def arraysAmongNames : Json :=
  .object [("type", .array [.string "object", .string "array"]),
    ("properties", .object [("a", .object [("type", .array [.string "string", .string "array"])])]),
    ("additionalProperties", .object [("anyOf", .array [])])]

/-- Its typed form. -/
def arraysAmongNamesTyped : Document :=
  { type := some (.many ["object", "array"])
    properties := some [("a", { type := some (.many ["string", "array"]) })]
    additionalProperties := some (.schema { anyOf := some [] }) }

/-- The object comes first among the names, and the array last among those of
its property. -/
theorem ofDocumentJson_fails_iff_arraysAmongNames :
    Document.ofJson arraysAmongNames = .ok arraysAmongNamesTyped ∧
      ofDocumentJson arraysAmongNames = .error (.missingItems ["properties", "a"]) ∧
      arraysAmongNamesTyped.defects.head? = some (["properties", "a"], .missingItems) ∧
      ∃ path node what, arraysAmongNamesTyped.Reaches path node ∧ node.HasDefect what := by
  have hTyped : Document.ofJson arraysAmongNames = .ok arraysAmongNamesTyped := rfl
  have hError : ofDocumentJson arraysAmongNames = .error (.missingItems ["properties", "a"]) := rfl
  obtain ⟨hFails, hFirst, -, -⟩ := ofDocumentJson_fails_iff hTyped
  obtain ⟨path, what, hHead, hSame⟩ := (hFirst _).mp hError
  cases what with
  | missingItems =>
    cases hSame
    exact ⟨hTyped, hError, hHead, hFails.mp ⟨_, hError⟩⟩
  | empty keyword => cases hSame

end Schema

end JsonStencil
