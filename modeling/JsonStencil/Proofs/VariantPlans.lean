import JsonStencil.Proofs.Renumbering
import JsonStencil.Proofs.Variants

/-!
# The steps of variants

Compiling two variants of a schema takes the same decisions at every node, so
it makes the same steps and hands out the same numbers for them. This is so
from any two allocations and at any two paths that correspond: the steps made
from the one are those made from the other up to the renumbering that moves
the one allocation to the other. From one and the same allocation variants
have the same plan, and a schema that is compiled somewhere else has the same
steps with other numbers.

Main definitions:

* `Renumbering.SameSteps` — the same steps and the same numbers handed out, up
  to a renumbering.
* `Schema.CompiledAlike` — two schemas compiled to the same steps everywhere.

Main results:

* `Variant.compiledAlike` — variants are compiled to the same steps.
* `Variant.ofSchema_eq` — variants have the same plan.
* `ofSchema_eq_of_node` — the plan of a schema hangs on its shape alone.
* `ofSchema_reordered` — the order of union members does not matter.
-/

namespace JsonStencil

/-- The same steps up to a renumbering, and the same numbers handed out behind
the two starts. -/
def Renumbering.SameSteps (ρ : Renumbering) (start other : Allocation)
    (one two : Fragment × Allocation) : Prop :=
  one.1.rename ρ = two.1 ∧ ρ.InStep start other one.2 two.2

namespace Schema

/-- Wherever the two schemas are compiled in step, the steps are the same. -/
def CompiledAlike (ρ : Renumbering) (start other : Allocation) (s t : Schema) : Prop :=
  ∀ (path : Path) (a b : Allocation), ρ.InStep start other a b →
    ρ.SameSteps start other (s.compile path a) (t.compile (path.rename ρ) b)

variable {ρ : Renumbering} {start other : Allocation} {L : Leeway} {s t : Schema}
  {properties others : List (String × Schema)} {a b : Allocation} {group : Option Nat}

/-! ## Fields -/

/-- A renumbering changes the flag that is asked for the comma, and nothing
else. -/
theorem rename_separator (placed : Bool) (group : Option Nat) :
    (separator placed group).rename ρ = separator placed (group.map ρ.groups) := by
  cases placed with
  | true => rfl
  | false =>
    cases group with
    | none => rfl
    | some flag => exact Fragment.rename_of ρ _

/-- The steps for an absent property are the same: only the text of the default
is looked at. -/
theorem Variant.absentField (hL : L.Unnoticed) (h : s.Variant L t) (placed : Bool)
    (group : Option Nat) (key : String) :
    (Schema.absentField placed group key s).rename ρ =
      Schema.absentField placed (group.map ρ.groups) key t := by
  have hText : s.default.map Json.text = t.default.map Json.text := hL.texts h.marks
  unfold Schema.absentField
  generalize s.default = default at hText
  generalize t.default = default' at hText
  -- the defaults have the same text, or there is none on either side
  cases default <;> cases default'
  · rfl
  · cases hText
  · cases hText
  · dsimp only
    rw [Fragment.rename_addText, Fragment.rename_addText, rename_separator,
      Option.some.inj hText]

/-- A renumbering changes the flag that is cleared at the start. -/
theorem rename_opening (group : Option Nat) :
    (opening group).rename ρ = opening (group.map ρ.groups) := by
  cases group with
  | none => rfl
  | some flag =>
    unfold opening
    rw [Fragment.rename_addText, Fragment.rename_of]
    rfl

section InStep

variable (hMoves : ρ.Moves start other)

include hMoves

/-- Both objects are given a flag, or neither is. -/
theorem VariantProperties.openGroup (h : VariantProperties L properties others)
    (hStep : ρ.InStep start other a b) :
    (Schema.openGroup properties a).1.map ρ.groups = (Schema.openGroup others b).1 ∧
      ρ.InStep start other (Schema.openGroup properties a).2 (Schema.openGroup others b).2 := by
  have hAny : (properties.any fun property => property.2.optional) =
      others.any fun property => property.2.optional := by
    -- some property of the one is optional exactly if one of the other is
    induction properties generalizing others with
    | nil => cases h; rfl
    | cons entry rest ih =>
      cases h with
      | cons key hOptional _ hRest =>
        rw [List.any_cons, List.any_cons, ih hRest]
        exact congrArg (· || _) hOptional
  obtain ⟨hFlag, hAfter⟩ := hStep.nextGroup hMoves
  unfold Schema.openGroup
  rw [hAny]
  split
  · exact ⟨congrArg some hFlag, hAfter⟩
  · exact ⟨rfl, hStep⟩

/-- Both properties are read through an alias, or neither is. -/
theorem Variant.propertyPath (h : s.Variant L t) (hStep : ρ.InStep start other a b)
    (name : Path) :
    (Schema.propertyPath s name a).1.rename ρ =
        (Schema.propertyPath t (name.rename ρ) b).1 ∧
      ρ.InStep start other (Schema.propertyPath s name a).2
        (Schema.propertyPath t (name.rename ρ) b).2 := by
  unfold Schema.propertyPath
  rw [h.isObjectTyped, Path.inLoop_rename]
  split
  · exact hStep.hoist hMoves name
  · exact ⟨rfl, hStep⟩

/-- A field of variants is the same steps, if the values are. -/
theorem CompiledAlike.compileField (h : CompiledAlike ρ start other s t)
    (hVariant : s.Variant L t) (key : String) (path : Path) (group : Option Nat) (placed : Bool)
    (hStep : ρ.InStep start other a b) :
    ρ.SameSteps start other (Schema.compileField key s path group placed a)
      (Schema.compileField key t (path.rename ρ) (group.map ρ.groups) placed b) := by
  obtain ⟨hPath, hSource⟩ := hVariant.propertyPath hMoves hStep (path.field key)
  -- the value is compiled behind the alias, if there is one, on both sides
  obtain ⟨hSteps, hAfter⟩ := h (Schema.propertyPath s (path.field key) a).1 _ _ hSource
  rw [hPath] at hSteps hAfter
  refine ⟨?_, hAfter⟩
  unfold Schema.compileField
  dsimp only
  rw [Fragment.rename_append, Fragment.rename_addText, rename_separator, hSteps]
  rfl

/-- Fields of variants are the same steps, if the values under them are. -/
theorem VariantProperties.compileFields (hL : L.Unnoticed)
    (h : VariantProperties L properties others)
    (hParts : ∀ part ∈ properties.map Prod.snd, ∀ variant, part.Variant L variant →
      CompiledAlike ρ start other part variant)
    (path : Path) (group : Option Nat) (placed : Bool) (hStep : ρ.InStep start other a b) :
    ρ.SameSteps start other (Schema.compileFields properties path group placed a)
      (Schema.compileFields others (path.rename ρ) (group.map ρ.groups) placed b) := by
  -- by the properties, each compiled where the allocations are after those in front of it
  induction properties generalizing others placed a b with
  | nil =>
    cases h
    rw [compileFields_nil, compileFields_nil]
    exact ⟨rfl, hStep⟩
  | cons entry rest ih =>
    cases h with
    | @cons key s t _ _ hOptional hFirst hRest =>
      rw [List.map_cons, List.forall_mem_cons] at hParts
      have hValue := hParts.1 t hFirst
      have hField := hValue.compileField hMoves hFirst key path group placed hStep
      -- a property is left out, written if it is there, or always written
      cases hUndefined : s.isUndefined with
      | true =>
        rw [compileFields_undefined _ _ _ _ _ hUndefined,
          compileFields_undefined _ _ _ _ _ (hFirst.isUndefined ▸ hUndefined)]
        exact ih hRest hParts.2 placed hStep
      | false =>
        cases hMarked : s.optional with
        | true =>
          rw [compileFields_optional _ _ _ _ _ hUndefined hMarked,
            compileFields_optional _ _ _ _ _ (hFirst.isUndefined ▸ hUndefined)
              (hOptional ▸ hMarked)]
          have hOthers := ih hRest hParts.2 placed hField.2
          -- whether the property is there is asked where its value is read
          have hSource := (hFirst.propertyPath hMoves hStep (path.field key)).1
          have hAbsent := hFirst.absentField (ρ := ρ) hL placed group key
          rw [Path.rename] at hSource
          refine ⟨?_, hOthers.2⟩
          dsimp only
          rw [Fragment.rename_append, Fragment.rename_of, Step.rename, hSource, hOthers.1,
            ← Fragment.steps_rename, ← Fragment.steps_rename, hField.1, hAbsent]
        | false =>
          rw [compileFields_required _ _ _ _ _ hUndefined hMarked,
            compileFields_required _ _ _ _ _ (hFirst.isUndefined ▸ hUndefined)
              (hOptional ▸ hMarked)]
          have hOthers := ih hRest hParts.2 true hField.2
          refine ⟨?_, hOthers.2⟩
          dsimp only
          rw [Fragment.rename_append, hField.1, hOthers.1]

end InStep

end Schema

/-! ## Nodes -/

section Nodes

variable {ρ : Renumbering} {start other : Allocation} {L : Leeway} {a b : Allocation}

/-- The same shapes are the same steps, if their parts are. -/
theorem Node.Variant.compiled (hMoves : ρ.Moves start other) (hL : L.Unnoticed) {n m : Node}
    (h : n.Variant L m)
    (hParts : ∀ part ∈ n.parts, ∀ variant, part.Variant L variant →
      Schema.CompiledAlike ρ start other part variant)
    (path : Path) (hStep : ρ.InStep start other a b) :
    ρ.SameSteps start other (n.compiled path a) (m.compiled (path.rename ρ) b) := by
  cases h with
  | silent => exact ⟨rfl, hStep⟩
  | leaf hLeaf =>
    -- a leaf has no parts, and its steps only ask for the place
    cases n with
    | generic => exact ⟨Fragment.rename_of ρ _, hStep⟩
    | scalar writer guard =>
      refine ⟨?_, hStep⟩
      unfold Node.compiled
      rw [Fragment.rename_guarded, Fragment.rename_of, Writer.rename_step]
    | date guard =>
      refine ⟨?_, hStep⟩
      unfold Node.compiled
      rw [Fragment.rename_guarded, Fragment.rename_of, Step.rename]
    | joined writer guard =>
      -- a join takes a slot, too
      refine ⟨?_, (hStep.nextLoop hMoves).2⟩
      unfold Node.compiled
      rw [Fragment.rename_guarded, Fragment.rename_of, Writer.rename_joinStep]
    | _ => cases hLeaf
  | object guard hProperties =>
    obtain ⟨hGroup, hOpened⟩ := hProperties.openGroup hMoves hStep
    obtain ⟨hFields, hAfter⟩ := hProperties.compileFields hMoves hL hParts path
      (Schema.openGroup _ a).1 false hOpened
    rw [hGroup] at hFields hAfter
    refine ⟨?_, hAfter⟩
    unfold Node.compiled
    dsimp only
    rw [Fragment.rename_guarded, Fragment.rename_addText, Fragment.rename_append,
      Schema.rename_opening, hGroup, hFields]
  | loop guard hItems =>
    obtain ⟨hSlot, hEntered⟩ := hStep.nextLoop hMoves
    -- the item is compiled at the slot that each has been given
    obtain ⟨hItem, hAfter⟩ :=
      hParts _ (List.mem_singleton_self _) _ hItems (.item a.nextLoop.1) _ _ hEntered
    rw [Path.rename, hSlot] at hItem hAfter
    refine ⟨?_, hAfter⟩
    unfold Node.compiled
    dsimp only
    rw [Fragment.rename_guarded, Fragment.rename_of, Step.rename, hSlot, ← Fragment.steps_rename,
      hItem]

namespace Schema

/-- Variants are compiled to the same steps. -/
theorem Variant.compiledAlike (hMoves : ρ.Moves start other) (hL : L.Unnoticed) (s : Schema) :
    ∀ t, s.Variant L t → CompiledAlike ρ start other s t := by
  -- by the parts of the shape; what is noted before it moves both allocations in step
  induction s using node_induction with
  | step s ih =>
    intro t h path a b hStep
    obtain ⟨notes, hs⟩ := compile_eq s path a
    obtain ⟨others, ht⟩ := compile_eq t (path.rename ρ) b
    rw [hs, ht]
    exact (h.node hL).compiled hMoves hL ih path (hStep.noteAll notes others)

end Schema

end Nodes

/-! ## Plans -/

/-- The same steps with the same numbers make the same plan. -/
theorem Renumbering.SameSteps.finish_eq {one two : Fragment × Allocation}
    (h : Renumbering.keep.SameSteps {} {} one two) : one.2.finish one.1 = two.2.finish two.1 := by
  obtain ⟨hSteps, ⟨groups, hGroups, hGroups'⟩, ⟨loops, hLoops, hLoops'⟩, paths, hPaths,
    hPaths'⟩ := h
  have hSame : paths.map (Path.rename .keep) = paths :=
    (List.map_congr_left fun path _ => path.rename_keep).trans (List.map_id' paths)
  -- the renumbering moves nothing, so the counters and the aliases are equal
  rw [Fragment.rename_keep] at hSteps
  rw [Allocation.finish, Allocation.finish, hSteps, hGroups, hGroups', hLoops, hLoops', hPaths,
    hPaths', hSame]

namespace Schema

/-- Variants have the same plan. -/
theorem Variant.ofSchema_eq {L : Leeway} (hL : L.Unnoticed) {s t : Schema} (h : s.Variant L t) :
    Plan.ofSchema s = Plan.ofSchema t :=
  (Variant.compiledAlike (Renumbering.moves_keep {}) hL s t h .root {} {}
    (.refl .keep {} {})).finish_eq

/-- The plan of a schema hangs on its shape alone. -/
theorem ofSchema_eq_of_node {s t : Schema} (h : s.node = t.node) :
    Plan.ofSchema s = Plan.ofSchema t := by
  have hMoves := Renumbering.moves_keep {}
  have hParts (part variant : Schema) (hPart : part.Variant .none variant) :
      CompiledAlike .keep {} {} part variant :=
    Variant.compiledAlike hMoves Leeway.unnoticed_none part variant hPart
  obtain ⟨notes, hs⟩ := compile_eq s .root {}
  obtain ⟨others, ht⟩ := compile_eq t .root {}
  -- a shape is a variant of itself, whatever was noted before it
  have hSame := (Node.Variant.refl t.node).compiled hMoves Leeway.unnoticed_none
    (fun part _ variant => hParts part variant) .root
    ((Renumbering.InStep.refl .keep {} {}).noteAll notes others)
  show (s.compile .root {}).2.finish (s.compile .root {}).1 =
    (t.compile .root {}).2.finish (t.compile .root {}).1
  rw [hs, ht, h]
  exact hSame.finish_eq

/-! ## The order of members -/

/-- **The order of union members does not matter.** Put the members of any
unions of a schema in another order, at any depth, and list null and undefined
members again: peeling finds the same member, itself up to the order of the
unions in it, with the same two flags, both kinds of unions with an encoding
of their own are recognised as before, guards write the same text, and the
plan is the same. -/
theorem ofSchema_reordered {s t : Schema} (h : s.Variant .none t) :
    Plan.ofSchema t = Plan.ofSchema s ∧
      (s.peel.schema.Variant .none t.peel.schema ∧ t.peel.nullable = s.peel.nullable ∧
        t.peel.undefinable = s.peel.undefinable) ∧
      t.isDateLike = s.isDateLike ∧ t.isIntegerString = s.isIntegerString ∧
      t.nullishMembers = s.nullishMembers ∧
      defaultText t.peel.schema t = defaultText s.peel.schema s := by
  obtain ⟨hCore, hNull, hUndefined⟩ := h.peel
  have hText := hCore.defaultText_eq Leeway.unnoticed_none h
  exact ⟨(h.ofSchema_eq Leeway.unnoticed_none).symm, ⟨hCore, hNull.symm, hUndefined.symm⟩,
    h.isDateLike.symm, h.isIntegerString.symm, h.nullishMembers.symm, hText.symm⟩

/-- A list of objects with a property that is a string of digits, a number or
null: the same in another order, with null twice. -/
theorem ofSchema_reordered_items :
    let digits := Schema.scalar (.string (some "integer")) {}
    let number := Schema.scalar .number {}
    let null := Schema.scalar .null {}
    let listOf (members : List Schema) : Schema :=
      .array (.object [("id", .union members {})] ["id"] false {}) {}
    (listOf [digits, number, null]).Variant .none (listOf [null, number, null, digits]) ∧
      Plan.ofSchema (listOf [null, number, null, digits]) =
        Plan.ofSchema (listOf [digits, number, null]) := by
  intro digits number null listOf
  have hPerm : ([digits] ++ [number, null]).Perm ([number, null] ++ [digits]) :=
    List.perm_append_comm
  -- the digits go last, and null is listed once more
  have hMembers : Rearranged [digits, number, null] [null, number, null, digits] :=
    (Rearranged.ofPerm hPerm).again (by simp) rfl
  have hUnion : (Schema.union [digits, number, null] {}).Variant .none
      (.union [null, number, null, digits] {}) := .union (.refl _) hMembers rfl
  have hList : (listOf [digits, number, null]).Variant .none
      (listOf [null, number, null, digits]) :=
    .array (.object false (.cons "id" rfl hUnion .nil) rfl rfl) rfl
  exact ⟨hList, (ofSchema_reordered hList).1⟩

end Schema

end JsonStencil
