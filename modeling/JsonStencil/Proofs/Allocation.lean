import JsonStencil.Proofs.Scope

/-!
# Handing out indices

Compiling a node hands out group flags, loop slots and aliases and takes none
of them back, so that what was handed out before stays as it was. Every
number in the steps is one that had been handed out by the time the step was
made: the flag of an object before its fields, the slot of a loop before its
items, an alias before the object that is read through it.

Main definitions:

* `Allocation.Extends` — an allocation with more numbers handed out.
* `Allocation.scope` — the numbers handed out, as a scope.

Main results:

* `compile_extends` — compiling only adds to what is handed out.
* `compile_inScope` — the steps of a node are in scope.
* `ofSchema_inScope` — the plan of a schema is in scope, and so it runs to
  its end on every value.
-/

namespace JsonStencil

namespace Allocation

/-! ## More handed out -/

/-- An allocation with at least the numbers of another one; the aliases keep
their paths. -/
structure Extends (a b : Allocation) : Prop where
  groups : a.groups ≤ b.groups
  loops : a.loops ≤ b.loops
  hoisted : a.hoisted <+: b.hoisted

theorem Extends.refl (a : Allocation) : a.Extends a :=
  ⟨Nat.le_refl _, Nat.le_refl _, List.prefix_refl _⟩

/-- What is handed out in two steps is handed out in the end. -/
theorem Extends.trans {a b c : Allocation} (hFirst : a.Extends b) (hSecond : b.Extends c) :
    a.Extends c :=
  ⟨Nat.le_trans hFirst.groups hSecond.groups, Nat.le_trans hFirst.loops hSecond.loops,
    hFirst.hoisted.trans hSecond.hoisted⟩

/-- A note hands out no number. -/
theorem extends_noteAll (a : Allocation) (notes : List Note) : a.Extends (a.noteAll notes) :=
  ⟨Nat.le_refl _, Nat.le_refl _, List.prefix_refl _⟩

/-- A loop takes one slot more. -/
theorem extends_nextLoop (a : Allocation) : a.Extends a.nextLoop.2 :=
  ⟨Nat.le_refl _, Nat.le_succ _, List.prefix_refl _⟩

/-- An alias is bound behind those that are. -/
theorem extends_hoist (a : Allocation) (path : Path) : a.Extends (a.hoist path).2 :=
  ⟨Nat.le_refl _, Nat.le_refl _, List.prefix_append _ _⟩

end Allocation

namespace Schema

/-- An object takes a flag or none. -/
theorem openGroup_extends (properties : List (String × Schema)) (a : Allocation) :
    a.Extends (openGroup properties a).2 := by
  unfold openGroup
  split
  · exact ⟨Nat.le_succ _, Nat.le_refl _, List.prefix_refl _⟩
  · exact Allocation.Extends.refl a

/-- A property is read through an alias only outside of loops. -/
theorem propertyPath_cases (property : Schema) (name : Path) (a : Allocation) :
    propertyPath property name a = (name, a) ∨
      (propertyPath property name a = a.hoist name ∧ name.inLoop = false) := by
  unfold propertyPath
  cases hLoop : name.inLoop with
  | true => exact Or.inl (by rw [Bool.not_true, Bool.and_false]; rfl)
  | false =>
    cases property.isObjectTyped with
    | true => exact Or.inr ⟨rfl, rfl⟩
    | false => exact Or.inl rfl

/-- A property takes an alias or none. -/
theorem propertyPath_extends (property : Schema) (name : Path) (a : Allocation) :
    a.Extends (propertyPath property name a).2 := by
  rcases propertyPath_cases property name a with h | ⟨h, -⟩
  · rw [h]
    exact Allocation.Extends.refl a
  · rw [h]
    exact Allocation.extends_hoist a name

/-- A field adds its alias, and what its value adds. -/
theorem compileField_extends {property : Schema}
    (hProperty : ∀ (path : Path) (a : Allocation), a.Extends (property.compile path a).2)
    (key : String) (path : Path) (group : Option Nat) (placed : Bool) (a : Allocation) :
    a.Extends (compileField key property path group placed a).2 :=
  (propertyPath_extends property (path.field key) a).trans (hProperty ..)

/-- So do all fields, one after the other. -/
theorem compileFields_extends (properties : List (String × Schema))
    (hParts : ∀ part ∈ properties.map Prod.snd, ∀ (path : Path) (a : Allocation),
      a.Extends (part.compile path a).2)
    (path : Path) (group : Option Nat) (placed : Bool) (a : Allocation) :
    a.Extends (compileFields properties path group placed a).2 := by
  -- the fields are compiled from the first to the last, whatever was placed before them
  induction properties generalizing placed a with
  | nil =>
    rw [compileFields_nil]
    exact Allocation.Extends.refl a
  | cons entry rest ih =>
    obtain ⟨key, property⟩ := entry
    have hProperty := hParts property (List.mem_cons_self ..)
    have hRest := ih fun part hPart => hParts part (List.mem_cons_of_mem _ hPart)
    have hField := compileField_extends hProperty key path group placed a
    cases hUndefined : property.isUndefined with
    | true =>
      rw [compileFields_undefined _ _ _ _ _ hUndefined]
      exact hRest placed a
    | false =>
      cases hOptional : property.optional with
      | true =>
        rw [compileFields_optional _ _ _ _ _ hUndefined hOptional]
        exact hField.trans (hRest placed _)
      | false =>
        rw [compileFields_required _ _ _ _ _ hUndefined hOptional]
        exact hField.trans (hRest true _)

/-- Compiling only adds to what is handed out. -/
theorem compile_extends (s : Schema) :
    ∀ (path : Path) (a : Allocation), a.Extends (s.compile path a).2 := by
  induction s using node_induction with
  | step s ih =>
    intro path a
    obtain ⟨notes, hCompile⟩ := compile_eq s path a
    rw [hCompile]
    refine (a.extends_noteAll notes).trans ?_
    -- from here on only the shape of the node matters
    generalize a.noteAll notes = a
    generalize s.node = node at ih
    cases node with
    | silent | generic | scalar _ _ | date _ => exact Allocation.Extends.refl a
    | joined _ _ => exact a.extends_nextLoop
    | object properties guard =>
      exact (openGroup_extends properties a).trans (compileFields_extends properties ih ..)
    | loop items guard =>
      exact a.extends_nextLoop.trans (ih items (List.mem_singleton_self _) _ _)

end Schema

/-! ## Fragments in scope -/

/-- Every number that a fragment uses is in scope. -/
def Fragment.InScope (σ : Scope) (f : Fragment) : Prop := ∀ step ∈ f.steps, step.InScope σ

namespace Fragment

variable {σ τ : Scope}

/-- What is in scope stays there when more is handed out. -/
theorem InScope.mono (h : σ.Within τ) {f : Fragment} (hFragment : f.InScope σ) : f.InScope τ :=
  fun step hStep => Step.InScope.mono h (hFragment step hStep)

theorem inScope_empty : ({} : Fragment).InScope σ :=
  fun _ hStep => absurd hStep List.not_mem_nil

/-- Texts use no number. -/
theorem InScope.addText {f : Fragment} (h : f.InScope σ) (literal : String) :
    (f.addText literal).InScope σ :=
  forall_addText (fun _ => trivial) literal h

/-- What is in scope can be put together. -/
theorem InScope.append {f other : Fragment} (h : f.InScope σ) (hOther : other.InScope σ) :
    (f.append other).InScope σ :=
  forall_appendFragment (fun _ => trivial) h hOther

theorem inScope_of {step : Step} (h : step.InScope σ) : (Fragment.of step).InScope σ :=
  forall_of (fun _ => trivial) h

/-- A guard asks the path alone. -/
theorem InScope.guarded {f : Fragment} (h : f.InScope σ) {path : Path} (hPath : path.InScope σ)
    (guard : Option Guard) : (f.guarded path guard).InScope σ := by
  cases guard with
  | none => exact h
  | some guard => exact inScope_of ⟨hPath, Step.allInScope_iff.mpr h⟩

end Fragment

/-! ## Handed out before use -/

/-- The numbers handed out, as a scope inside some loops. -/
def Allocation.scope (a : Allocation) (items : List Nat) : Scope :=
  { groups := a.groups, loops := a.loops, aliases := a.hoisted.length, items := items }

/-- With more handed out, the scope has become wider. -/
theorem Allocation.Extends.within {a b : Allocation} (h : a.Extends b) (items : List Nat) :
    (a.scope items).Within (b.scope items) :=
  ⟨h.groups, h.loops, h.hoisted.length_le, fun _ hSlot => hSlot⟩

/-- A path from outside of loops does without their items. -/
theorem Path.inScope_outside {σ : Scope} {path : Path} (h : path.InScope σ)
    (hLoop : path.inLoop = false) : path.InScope (.outside σ.aliases) := by
  induction path with
  | root => trivial
  | «alias» index => exact h
  -- a path that starts from an item is inside a loop
  | item slot => exact absurd hLoop Bool.noConfusion
  | field parent key ih => exact ih h hLoop

/-- One alias more may lead back through those before it. -/
theorem AliasesInScope.concat {aliases : List Path} (h : AliasesInScope aliases) {path : Path}
    (hPath : path.InScope (.outside aliases.length)) : AliasesInScope (aliases ++ [path]) := by
  intro index found hFound
  -- an alias of before, the new one, or none at all
  rcases Nat.lt_trichotomy index aliases.length with hOld | rfl | hBeyond
  · rw [List.getElem?_append_left hOld] at hFound
    exact h index found hFound
  · rw [List.getElem?_concat_length] at hFound
    exact Option.some.inj hFound ▸ hPath
  · rw [List.getElem?_eq_none (by rw [List.length_append, List.length_singleton]; omega)] at hFound
    cases hFound

/-- The steps of a fragment use what has been handed out, and the aliases
lead back to the root. -/
structure UsesHandedOut (items : List Nat) (r : Fragment × Allocation) : Prop where
  aliases : AliasesInScope r.2.hoisted
  steps : r.1.InScope (r.2.scope items)

namespace Schema

/-- Compiling a node somewhere yields steps that use what has been handed
out. -/
def CompilesInScope (s : Schema) : Prop :=
  ∀ (items : List Nat) (path : Path) (a : Allocation), AliasesInScope a.hoisted →
    path.InScope (a.scope items) → UsesHandedOut items (s.compile path a)

/-- What stands before a field asks the flag of its object at most. -/
theorem separator_inScope {placed : Bool} {group : Option Nat} {σ : Scope}
    (hGroup : ∀ flag, group = some flag → flag < σ.groups) :
    (separator placed group).InScope σ := by
  cases placed with
  | true => exact Fragment.inScope_empty.addText ","
  | false =>
    cases group with
    | none => exact Fragment.inScope_empty
    | some flag => exact Fragment.inScope_of (hGroup flag rfl)

/-- A default in the place of a field needs no more than its separator. -/
theorem absentField_inScope {placed : Bool} {group : Option Nat} {σ : Scope}
    (hGroup : ∀ flag, group = some flag → flag < σ.groups) (key : String) (property : Schema) :
    (absentField placed group key property).InScope σ := by
  unfold absentField
  split
  · exact ((separator_inScope hGroup).addText _).addText _
  · exact Fragment.inScope_empty

/-- The path of a property is in scope once its alias, if it takes one, is
bound. -/
theorem propertyPath_inScope (property : Schema) (name : Path) {a : Allocation} {items : List Nat}
    (hAliases : AliasesInScope a.hoisted) (hName : name.InScope (a.scope items)) :
    AliasesInScope (propertyPath property name a).2.hoisted ∧
      (propertyPath property name a).1.InScope ((propertyPath property name a).2.scope items) := by
  rcases propertyPath_cases property name a with h | ⟨h, hLoop⟩
  · rw [h]
    exact ⟨hAliases, hName⟩
  · rw [h]
    -- the new alias is the last one, and its path leads back without it
    refine ⟨hAliases.concat (Path.inScope_outside hName hLoop), ?_⟩
    show a.hoisted.length < (a.hoisted ++ [name]).length
    rw [List.length_append, List.length_singleton]
    omega

section Fields

variable {items : List Nat} {path : Path} {group : Option Nat} {a : Allocation}

/-- A field uses the flag of its object, its alias and what its value uses. -/
theorem compileField_inScope {property : Schema} (hProperty : property.CompilesInScope)
    (hAliases : AliasesInScope a.hoisted) (hPath : path.InScope (a.scope items))
    (hGroup : ∀ flag, group = some flag → flag < a.groups) (key : String) (placed : Bool) :
    UsesHandedOut items (compileField key property path group placed a) := by
  obtain ⟨hBound, hSource⟩ := propertyPath_inScope property (path.field key) hAliases hPath
  have hValue := hProperty items _ _ hBound hSource
  have hExtends := compileField_extends (compile_extends property) key path group placed a
  refine ⟨hValue.aliases, Fragment.InScope.append (Fragment.InScope.addText ?_ _) hValue.steps⟩
  exact separator_inScope fun flag hFlag => Nat.lt_of_lt_of_le (hGroup flag hFlag) hExtends.groups

/-- The steps of all fields use what is handed out by the end of the last one.
-/
theorem compileFields_inScope {properties : List (String × Schema)}
    (hParts : ∀ part ∈ properties.map Prod.snd, part.CompilesInScope)
    (hAliases : AliasesInScope a.hoisted) (hPath : path.InScope (a.scope items))
    (hGroup : ∀ flag, group = some flag → flag < a.groups) (placed : Bool) :
    UsesHandedOut items (compileFields properties path group placed a) := by
  -- the invariant moves along with the allocation: aliases are bound, the path is in
  -- scope, the flag of the object has been handed out
  induction properties generalizing placed a with
  | nil =>
    rw [compileFields_nil]
    exact ⟨hAliases, Fragment.inScope_empty⟩
  | cons entry rest ih =>
    obtain ⟨key, property⟩ := entry
    have hProperty := hParts property (List.mem_cons_self ..)
    have hTail : ∀ part ∈ rest.map Prod.snd, part.CompilesInScope :=
      fun part hPart => hParts part (List.mem_cons_of_mem _ hPart)
    -- what the field and the fields behind it hand out
    have hField := compileField_inScope hProperty hAliases hPath hGroup key placed
    have hGrows := compileField_extends (compile_extends property) key path group placed a
    have hRest := ih hTail hField.aliases (hPath.mono (hGrows.within items))
      fun flag hFlag => Nat.lt_of_lt_of_le (hGroup flag hFlag) hGrows.groups
    have hRestGrows := fun later => compileFields_extends rest (fun part _ => compile_extends part)
      path group later (compileField key property path group placed a).2
    cases hUndefined : property.isUndefined with
    | true =>
      rw [compileFields_undefined _ _ _ _ _ hUndefined]
      exact ih hTail hAliases hPath hGroup placed
    | false =>
      cases hOptional : property.optional with
      | false =>
        rw [compileFields_required _ _ _ _ _ hUndefined hOptional]
        exact ⟨(hRest true).aliases,
          (hField.steps.mono ((hRestGrows true).within items)).append (hRest true).steps⟩
      | true =>
        rw [compileFields_optional _ _ _ _ _ hUndefined hOptional]
        -- both branches may use what the fields behind them hand out
        have hWithin := (hRestGrows placed).within items
        have hSource := (propertyPath_inScope property (path.field key) hAliases hPath).2
        have hValueGrows := compile_extends property
          (propertyPath property (path.field key) a).1 (propertyPath property (path.field key) a).2
        refine ⟨(hRest placed).aliases, Fragment.InScope.append (Fragment.inScope_of ?_)
          (hRest placed).steps⟩
        refine ⟨(hSource.mono (hValueGrows.within items)).mono hWithin, ?_, ?_⟩
        · exact Step.allInScope_iff.mpr (hField.steps.mono hWithin)
        · refine Step.allInScope_iff.mpr (absentField_inScope ?_ key property)
          intro flag hFlag
          exact Nat.lt_of_lt_of_le (hGroup flag hFlag)
            (hGrows.trans (hRestGrows placed)).groups

end Fields

/-- The flag of an object has been handed out before its fields. -/
theorem openGroup_lt (properties : List (String × Schema)) (a : Allocation) :
    ∀ flag, (openGroup properties a).1 = some flag → flag < (openGroup properties a).2.groups := by
  intro flag hFlag
  unfold openGroup at hFlag ⊢
  split at hFlag
  · next h =>
    rw [if_pos h]
    cases hFlag
    exact Nat.lt_succ_self _
  · cases hFlag

/-- What opens an object resets its flag if it has one. -/
theorem opening_inScope {group : Option Nat} {σ : Scope}
    (hGroup : ∀ flag, group = some flag → flag < σ.groups) : (opening group).InScope σ := by
  cases group with
  | none => exact Fragment.inScope_empty.addText _
  | some flag =>
    have hReset : Step.InScope σ (.reset flag) := hGroup flag rfl
    exact (Fragment.inScope_of hReset).addText _

/-- The steps of a shape use what has been handed out, if those of its parts
do. -/
theorem compiled_inScope {node : Node} (hParts : ∀ part ∈ node.parts, part.CompilesInScope)
    (items : List Nat) (path : Path) {a : Allocation} (hAliases : AliasesInScope a.hoisted)
    (hPath : path.InScope (a.scope items)) : UsesHandedOut items (node.compiled path a) := by
  cases node with
  | silent => exact ⟨hAliases, Fragment.inScope_empty⟩
  | generic => exact ⟨hAliases, Fragment.inScope_of hPath⟩
  | scalar writer guard =>
    refine ⟨hAliases, (Fragment.inScope_of ?_).guarded hPath guard⟩
    cases writer <;> exact hPath
  | date guard =>
    have hStep : Step.InScope (a.scope items) (.date path) := hPath
    exact ⟨hAliases, (Fragment.inScope_of hStep).guarded hPath guard⟩
  | joined writer guard =>
    -- a join takes a slot that it does not use
    have hLoopPath : path.InScope (a.nextLoop.2.scope items) :=
      hPath.mono (a.extends_nextLoop.within items)
    refine ⟨hAliases, (Fragment.inScope_of ?_).guarded hLoopPath guard⟩
    cases writer <;> exact hLoopPath
  | object properties guard =>
    -- the flag is handed out first, and the fields go on from there
    have hOpened := openGroup_extends properties a
    have hGroup := openGroup_lt properties a
    have hFieldsPath := hPath.mono (hOpened.within items)
    have hOpenedAliases : AliasesInScope (openGroup properties a).2.hoisted := by
      unfold openGroup
      split <;> exact hAliases
    have hFields := compileFields_inScope hParts hOpenedAliases hFieldsPath hGroup false
    have hGrows := compileFields_extends properties (fun part _ => compile_extends part) path
      (openGroup properties a).1 false (openGroup properties a).2
    have hOpening : (opening (openGroup properties a).1).InScope
        ((compileFields properties path (openGroup properties a).1 false
          (openGroup properties a).2).2.scope items) :=
      opening_inScope fun flag hFlag => Nat.lt_of_lt_of_le (hGroup flag hFlag) hGrows.groups
    exact ⟨hFields.aliases, ((hOpening.append hFields.steps).addText _).guarded
      (hFieldsPath.mono (hGrows.within items)) guard⟩
  | loop itemSchema guard =>
    -- so is the slot, before the steps of an item that use it
    have hPart := hParts itemSchema (List.mem_singleton_self _)
    have hItem := hPart (a.nextLoop.1 :: items) (.item a.nextLoop.1) a.nextLoop.2 hAliases
      (List.mem_cons_self ..)
    have hGrows := compile_extends itemSchema (.item a.nextLoop.1) a.nextLoop.2
    have hLoopPath := hPath.mono ((a.extends_nextLoop.trans hGrows).within items)
    refine ⟨hItem.aliases, (Fragment.inScope_of ?_).guarded hLoopPath guard⟩
    exact ⟨hLoopPath, Nat.lt_of_lt_of_le (Nat.lt_succ_self _) hGrows.loops,
      Step.allInScope_iff.mpr hItem.steps⟩

/-- The steps of a node use what has been handed out. -/
theorem compile_inScope (s : Schema) : s.CompilesInScope := by
  induction s using node_induction with
  | step s ih =>
    intro items path a hAliases hPath
    obtain ⟨notes, hCompile⟩ := compile_eq s path a
    -- notes are of no account, and the shape decides
    rw [hCompile]
    exact compiled_inScope ih items path (a := a.noteAll notes) hAliases hPath

end Schema

/-- **The plan of a schema is in scope**: its flags, slots and aliases are
among those it declares, the item of a loop is used inside that loop only,
and aliases lead back to the root one by one. Its run therefore ends on every
value, whether the value fits the schema or not. -/
theorem Plan.ofSchema_inScope (s : Schema) :
    (Plan.ofSchema s).InScope ∧
      ∀ (escaping : Json.Escaping) (v : Value),
        ∃ text, (Plan.ofSchema s).run escaping v = .ok text := by
  have hRoot := Schema.compile_inScope s [] .root {}
    (fun index path hPath => by simp at hPath) trivial
  have hPlan : (Plan.ofSchema s).InScope :=
    ⟨hRoot.aliases, Step.allInScope_iff.mpr hRoot.steps⟩
  exact ⟨hPlan, fun escaping v => Plan.run_completes hPlan escaping v⟩

end JsonStencil
