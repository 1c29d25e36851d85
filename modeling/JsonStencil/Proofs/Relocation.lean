import JsonStencil.Proofs.FreshFlags
import JsonStencil.Proofs.VariantPlans

/-!
# Numbers handed out once

What compiling a node hands out is used by the steps of that node and by no
others. Every flag handed out is cleared by one step, in the order in which the
flags were handed out; every loop enters a slot of its own, though an array
that is joined leaves its slot unused; and a path starts where the path of the
node starts, or from an alias or a slot handed out on the way. So what is
handed out hangs on the allocation that compiling begins with only through the
numbers themselves: from another allocation come the same steps and the same
aliases, with the numbers moved.

Main definitions:

* `Step.everyStep` — a step with the steps inside it, at any depth.
* `Fragment.collect` — what the steps of a fragment have, at any depth.
* `Takes` — what the steps of a node use of what is handed out.
* `Renumbering.shift` — the numbers from one allocation on, moved to another.
* `UsedOnce` / `Relocated` — what compiling does with what is handed out.

Main results:

* `compile_takes` — the steps of a node use what was handed out for them.
* `compile_relocates` — from another allocation come the same steps with
  other numbers.
-/

namespace JsonStencil

/-! ## Steps at any depth -/

namespace Step

mutual

/-- A step and the steps inside it, at any depth. -/
def everyStep : Step → List Step
  | .guarded path guard steps => .guarded path guard steps :: everyStepOf steps
  | .optional path present absent =>
    .optional path present absent :: (everyStepOf present ++ everyStepOf absent)
  | .loop path slot item => .loop path slot item :: everyStepOf item
  | step => [step]

/-- The steps of a list and those inside them. -/
def everyStepOf : List Step → List Step
  | [] => []
  | step :: rest => everyStep step ++ everyStepOf rest

end

/-- The slot that a step enters, if it is a loop. -/
def enters : Step → List Nat
  | .loop _ slot _ => [slot]
  | _ => []

/-- The path that a step reads itself, apart from the steps inside it. -/
def reads : Step → List Path
  | .text _ | .reset _ | .comma _ => []
  | .quoted path | .raw path | .date path | .generic path | .joinQuoted path | .joinRaw path
  | .guarded path _ _ | .optional path _ _ | .loop path _ _ => [path]

end Step

namespace Fragment

variable {α : Type}

/-- What the steps of a fragment have, at any depth and in order. -/
def collect (p : Step → List α) (f : Fragment) : List α :=
  (Step.everyStepOf f.steps).flatMap p

section Collect

variable {p : Step → List α} (hText : ∀ literal, p (.text literal) = [])

include hText

/-- A step is a text, which has nothing, or it is active. -/
theorem flatMap_filter_not_isText (step : Step) :
    ([step].filter fun step => !step.isText).flatMap (fun step => step.everyStep.flatMap p) =
      step.everyStep.flatMap p := by
  cases hStep : step.isText with
  | false =>
    rw [List.filter_cons, hStep]
    exact List.append_nil _
  | true =>
    cases step with
    | text literal =>
      show [] = p (.text literal) ++ []
      rw [hText, List.append_nil]
    | _ => cases hStep

/-- Texts have nothing. -/
theorem collect_eq_active (f : Fragment) :
    f.collect p = f.active.flatMap fun step => step.everyStep.flatMap p := by
  unfold collect active
  induction f.steps with
  | nil => rfl
  | cons step rest ih =>
    rw [Step.everyStepOf, List.flatMap_append, ih, ← List.singleton_append, List.filter_append,
      List.flatMap_append, flatMap_filter_not_isText hText]

theorem collect_addText (f : Fragment) (literal : String) :
    (f.addText literal).collect p = f.collect p := by
  rw [collect_eq_active hText, active_addText, collect_eq_active hText]

theorem collect_append (f other : Fragment) :
    (f.append other).collect p = f.collect p ++ other.collect p := by
  rw [collect_eq_active hText, active_append, List.flatMap_append, collect_eq_active hText,
    collect_eq_active hText]

theorem collect_of (step : Step) : (of step).collect p = step.everyStep.flatMap p := by
  rw [collect_eq_active hText, active_of, flatMap_filter_not_isText hText]

/-- A guard itself comes in front of what it guards. -/
theorem collect_guarded (f : Fragment) (path : Path) (guard : Option Guard) :
    (f.guarded path guard).collect p =
      (guard.toList.flatMap fun guard => p (.guarded path guard f.steps)) ++ f.collect p := by
  cases guard with
  | none => rfl
  | some guard =>
    rw [guarded, collect_of hText, Step.everyStep, List.flatMap_cons, Option.toList_some,
      List.flatMap_cons, List.flatMap_nil, List.append_nil]
    rfl

end Collect

end Fragment

/-! ## What is used of what is handed out -/

/-- A path that starts where the given one does, or from an alias or a slot
handed out between two allocations. -/
def Path.StartsFrom (path : Path) (a b : Allocation) (q : Path) : Prop :=
  q.base = path.base ∨
    (∃ index, q.base = .alias index ∧ a.hoisted.length ≤ index ∧ index < b.hoisted.length) ∨
    ∃ slot, q.base = .item slot ∧ a.loops ≤ slot ∧ slot < b.loops

/-- What steps made for a path between two allocations use: all flags handed
out meanwhile are cleared in turn, slots handed out meanwhile are entered in
turn, and paths start from the given one or from what was handed out. -/
structure Takes (path : Path) (a b : Allocation) (f : Fragment) : Prop where
  flags : ∃ n, b.groups = a.groups + n ∧ f.collect Step.clears = List.range' a.groups n
  slots : ∃ n, b.loops = a.loops + n ∧ (f.collect Step.enters).Sublist (List.range' a.loops n)
  hoisted : ∃ paths, b.hoisted = a.hoisted ++ paths ∧ ∀ q ∈ paths, path.StartsFrom a b q
  paths : ∀ q ∈ f.collect Step.reads, path.StartsFrom a b q

/-- A fragment that uses none of the numbers that count. -/
structure Fragment.Quiet (f : Fragment) : Prop where
  flags : f.collect Step.clears = []
  slots : f.collect Step.enters = []
  paths : f.collect Step.reads = []

section Takes

variable {path source : Path} {a b c : Allocation} {f g : Fragment}

/-- Nothing that was handed out before is taken back. -/
theorem Takes.extends (h : Takes path a b f) : a.Extends b := by
  obtain ⟨n, hGroups, -⟩ := h.flags
  obtain ⟨m, hLoops, -⟩ := h.slots
  obtain ⟨paths, hHoisted, -⟩ := h.hoisted
  exact ⟨hGroups ▸ Nat.le_add_right _ n, hLoops ▸ Nat.le_add_right _ m,
    hHoisted ▸ List.prefix_append _ paths⟩

/-- What starts behind a later allocation starts behind the earlier one. -/
theorem Path.StartsFrom.trans {q : Path} (hSource : path.StartsFrom a b source)
    (h : source.StartsFrom b c q) (hFirst : a.Extends b) (hSecond : b.Extends c) :
    path.StartsFrom a c q := by
  have hAliases := hFirst.hoisted.length_le
  have hMore := hSecond.hoisted.length_le
  have hLoops := hFirst.loops
  have hFurther := hSecond.loops
  -- from the source, or from what was handed out for it
  rcases h with hBase | ⟨index, hBase, hLow, hHigh⟩ | ⟨slot, hBase, hLow, hHigh⟩
  · rcases hSource with hStart | ⟨index, hStart, hLow, hHigh⟩ | ⟨slot, hStart, hLow, hHigh⟩
    · exact Or.inl (hBase.trans hStart)
    · exact Or.inr (Or.inl ⟨index, hBase.trans hStart, hLow, by omega⟩)
    · exact Or.inr (Or.inr ⟨slot, hBase.trans hStart, hLow, by omega⟩)
  · exact Or.inr (Or.inl ⟨index, hBase, by omega, hHigh⟩)
  · exact Or.inr (Or.inr ⟨slot, hBase, by omega, hHigh⟩)

/-- More may be handed out behind it. -/
theorem Path.StartsFrom.later {q : Path} (h : path.StartsFrom a b q) (hFirst : a.Extends b)
    (hSecond : b.Extends c) : path.StartsFrom a c q :=
  h.trans (Or.inl rfl) hFirst hSecond

/-- Nothing is handed out for a quiet fragment. -/
theorem Fragment.Quiet.takes (h : f.Quiet) (path : Path) (a : Allocation) : Takes path a a f where
  flags := ⟨0, rfl, h.flags⟩
  slots := ⟨0, rfl, h.slots ▸ List.nil_sublist _⟩
  hoisted := ⟨[], (List.append_nil _).symm, fun _ hPath => absurd hPath List.not_mem_nil⟩
  paths := fun _ hPath => absurd (h.paths ▸ hPath) List.not_mem_nil

/-- One step that reads the path and no more. -/
theorem takes_leaf {step : Step} (hAlone : step.everyStep = [step]) (hFlags : step.clears = [])
    (hSlots : step.enters = []) (hReads : step.reads = [path]) (a : Allocation) :
    Takes path a a (Fragment.of step) where
  -- nothing is handed out, and the place alone is read
  flags := ⟨0, rfl, by
    rw [Fragment.collect_of fun _ => rfl, hAlone, List.flatMap_cons, hFlags]
    rfl⟩
  slots := ⟨0, rfl, by
    rw [Fragment.collect_of fun _ => rfl, hAlone, List.flatMap_cons, hSlots]
    exact List.nil_sublist _⟩
  hoisted := ⟨[], (List.append_nil _).symm, fun _ hPath => absurd hPath List.not_mem_nil⟩
  paths := by
    intro q hPath
    rw [Fragment.collect_of fun _ => rfl, hAlone, List.flatMap_cons, hReads] at hPath
    exact Or.inl (congrArg Path.base (List.mem_singleton.mp hPath))

namespace Takes

theorem ofNoted {notes : List Note} (h : Takes path (a.noteAll notes) b f) : Takes path a b f :=
  ⟨h.flags, h.slots, h.hoisted, h.paths⟩

/-- Texts take no number. -/
theorem addText (h : Takes path a b f) (literal : String) : Takes path a b (f.addText literal) where
  flags := by
    rw [Fragment.collect_addText fun _ => rfl]
    exact h.flags
  slots := by
    rw [Fragment.collect_addText fun _ => rfl]
    exact h.slots
  hoisted := h.hoisted
  paths := by
    rw [Fragment.collect_addText fun _ => rfl]
    exact h.paths

/-- Steps for a path that starts from what was handed out come behind the
steps that it was handed out for. -/
theorem append (h : Takes path a b f) (hSource : path.StartsFrom a b source)
    (hOther : Takes source b c g) : Takes path a c (f.append g) where
  flags := by
    -- the second part is compiled where the first one ended, so its numbers come next
    obtain ⟨n, hFirst, hCleared⟩ := h.flags
    obtain ⟨m, hSecond, hMore⟩ := hOther.flags
    refine ⟨n + m, by omega, ?_⟩
    rw [Fragment.collect_append fun _ => rfl, hCleared, hMore, hFirst, List.range'_append_1]
  slots := by
    obtain ⟨n, hFirst, hEntered⟩ := h.slots
    obtain ⟨m, hSecond, hMore⟩ := hOther.slots
    refine ⟨n + m, by omega, ?_⟩
    rw [hFirst] at hMore
    rw [Fragment.collect_append fun _ => rfl, ← List.range'_append_1]
    exact hEntered.append hMore
  hoisted := by
    obtain ⟨paths, hFirst, hStart⟩ := h.hoisted
    obtain ⟨more, hSecond, hFurther⟩ := hOther.hoisted
    refine ⟨paths ++ more, by rw [hSecond, hFirst, List.append_assoc], fun q hPath => ?_⟩
    -- what starts from the source starts from the path, by way of an alias perhaps
    rcases List.mem_append.mp hPath with hEarly | hLate
    · exact (hStart q hEarly).later h.extends hOther.extends
    · exact hSource.trans (hFurther q hLate) h.extends hOther.extends
  paths := by
    intro q hPath
    rw [Fragment.collect_append fun _ => rfl] at hPath
    rcases List.mem_append.mp hPath with hEarly | hLate
    · exact (h.paths q hEarly).later h.extends hOther.extends
    · exact hSource.trans (hOther.paths q hLate) h.extends hOther.extends

/-- A slot may be handed out that is not entered. -/
theorem nextLoop (h : Takes path a b f) : Takes path a b.nextLoop.2 f where
  flags := h.flags
  slots := by
    obtain ⟨n, hLoops, hEntered⟩ := h.slots
    refine ⟨n + 1, congrArg (· + 1) hLoops, hEntered.trans ?_⟩
    rw [List.range'_1_concat]
    exact List.sublist_append_left ..
  hoisted := by
    obtain ⟨paths, hHoisted, hPaths⟩ := h.hoisted
    exact ⟨paths, hHoisted, fun q hPath => (hPaths q hPath).later h.extends b.extends_nextLoop⟩
  paths := fun q hPath => (h.paths q hPath).later h.extends b.extends_nextLoop

/-- A guard reads the path once more. -/
theorem guarded (h : Takes path a b f) (guard : Option Guard) :
    Takes path a b (f.guarded path guard) where
  flags := by
    rw [Fragment.collect_guarded fun _ => rfl]
    cases guard <;> exact h.flags
  slots := by
    rw [Fragment.collect_guarded fun _ => rfl]
    cases guard <;> exact h.slots
  hoisted := h.hoisted
  paths := by
    intro q hPath
    rw [Fragment.collect_guarded fun _ => rfl] at hPath
    -- the guard reads the path itself
    rcases List.mem_append.mp hPath with hGuard | hInner
    · obtain ⟨guard, -, hRead⟩ := List.mem_flatMap.mp hGuard
      exact Or.inl (congrArg Path.base (List.mem_singleton.mp hRead))
    · exact h.paths q hInner

end Takes

end Takes

/-! ## Fields -/

namespace Schema

variable {path : Path} {a b : Allocation} {f : Fragment}

/-- A text uses no numbers. -/
theorem Quiet.addText (h : f.Quiet) (literal : String) : (f.addText literal).Quiet where
  flags := (Fragment.collect_addText (fun _ => rfl) f literal).trans h.flags
  slots := (Fragment.collect_addText (fun _ => rfl) f literal).trans h.slots
  paths := (Fragment.collect_addText (fun _ => rfl) f literal).trans h.paths

theorem quiet_empty : ({} : Fragment).Quiet := ⟨rfl, rfl, rfl⟩

/-- A comma reads its flag without clearing it. -/
theorem quiet_separator (placed : Bool) (group : Option Nat) : (separator placed group).Quiet := by
  cases placed with
  | true => exact Quiet.addText quiet_empty ","
  | false => cases group <;> exact ⟨rfl, rfl, rfl⟩

/-- The default of a missing field uses none that count. -/
theorem quiet_absentField (placed : Bool) (group : Option Nat) (key : String)
    (property : Schema) : (absentField placed group key property).Quiet := by
  unfold absentField
  split
  · exact Quiet.addText (Quiet.addText (quiet_separator placed group) _) _
  · exact quiet_empty

/-- The path of a property starts where that of the object does, or from an
alias that is handed out for it. -/
theorem propertyPath_takes (hQuiet : f.Quiet) (property : Schema) (key : String) (path : Path)
    (a : Allocation) :
    Takes path a (propertyPath property (path.field key) a).2 f ∧
      path.StartsFrom a (propertyPath property (path.field key) a).2
        (propertyPath property (path.field key) a).1 := by
  -- no alias, or one for the path of the property
  rcases propertyPath_cases property (path.field key) a with h | ⟨h, -⟩
  · rw [h]
    exact ⟨hQuiet.takes path a, Or.inl rfl⟩
  · rw [h]
    refine ⟨⟨⟨0, rfl, hQuiet.flags⟩, ⟨0, rfl, hQuiet.slots ▸ List.nil_sublist _⟩,
      ⟨[path.field key], rfl, fun q hPath => ?_⟩,
      fun _ hPath => absurd (hQuiet.paths ▸ hPath) List.not_mem_nil⟩, ?_⟩
    · rw [List.mem_singleton.mp hPath]
      exact Or.inl rfl
    · refine Or.inr (Or.inl ⟨a.hoisted.length, rfl, Nat.le_refl _, ?_⟩)
      show a.hoisted.length < (a.hoisted ++ [path.field key]).length
      rw [List.length_append, List.length_singleton]
      exact Nat.lt_succ_self _

/-- Compiling a node somewhere takes what is handed out for it. -/
def CompilesFresh (s : Schema) : Prop :=
  ∀ (path : Path) (a : Allocation), Takes path a (s.compile path a).2 (s.compile path a).1

/-- A field takes what its path and its value take. -/
theorem compileField_takes {property : Schema} (hProperty : property.CompilesFresh)
    (key : String) (path : Path) (group : Option Nat) (placed : Bool) (a : Allocation) :
    Takes path a (compileField key property path group placed a).2
      (compileField key property path group placed a).1 := by
  have hQuiet := Quiet.addText (quiet_separator placed group) (label key)
  obtain ⟨hHoisted, hSource⟩ := propertyPath_takes hQuiet property key path a
  exact hHoisted.append hSource (hProperty _ _)

/-- Of the two branches of a field that may be absent only one takes
anything. -/
theorem takes_optional {source : Path} {present absent : Fragment}
    (h : Takes path a b present) (hAbsent : absent.Quiet) (hSource : path.StartsFrom a b source) :
    Takes path a b (Fragment.of (.optional source present.steps absent.steps)) := by
  -- the branch for an absent property takes nothing of its own
  have hCollect {α : Type} {p : Step → List α} (hText : ∀ literal, p (.text literal) = [])
      (hEmpty : absent.collect p = []) :
      (Fragment.of (.optional source present.steps absent.steps)).collect p =
        p (.optional source present.steps absent.steps) ++ present.collect p := by
    rw [Fragment.collect_of hText, Step.everyStep, List.flatMap_cons, List.flatMap_append]
    show _ ++ (present.collect p ++ absent.collect p) = _
    rw [hEmpty, List.append_nil]
  exact {
    flags := by
      rw [hCollect (fun _ => rfl) hAbsent.flags]
      exact h.flags
    slots := by
      rw [hCollect (fun _ => rfl) hAbsent.slots]
      exact h.slots
    hoisted := h.hoisted
    paths := by
      intro q hPath
      rw [hCollect (fun _ => rfl) hAbsent.paths] at hPath
      rcases List.mem_cons.mp hPath with rfl | hInner
      · exact hSource
      · exact h.paths q hInner }

/-- Fields take what is handed out for them in turn. -/
theorem compileFields_takes {properties : List (String × Schema)}
    (hParts : ∀ part ∈ properties.map Prod.snd, part.CompilesFresh) (path : Path)
    (group : Option Nat) (placed : Bool) (a : Allocation) :
    Takes path a (compileFields properties path group placed a).2
      (compileFields properties path group placed a).1 := by
  -- each field is compiled from what the one before it has handed out
  induction properties generalizing placed a with
  | nil =>
    rw [compileFields_nil]
    exact quiet_empty.takes path a
  | cons entry rest ih =>
    obtain ⟨key, property⟩ := entry
    rw [List.map_cons, List.forall_mem_cons] at hParts
    have hField := compileField_takes hParts.1 key path group placed a
    have hRest := fun later => ih hParts.2 later (compileField key property path group placed a).2
    cases hUndefined : property.isUndefined with
    | true =>
      rw [compileFields_undefined _ _ _ _ _ hUndefined]
      exact ih hParts.2 placed a
    | false =>
      cases hOptional : property.optional with
      | false =>
        rw [compileFields_required _ _ _ _ _ hUndefined hOptional]
        exact hField.append (Or.inl rfl) (hRest true)
      | true =>
        rw [compileFields_optional _ _ _ _ _ hUndefined hOptional]
        -- the alias that the value is tested at was handed out with the field
        have hSource : path.StartsFrom a (compileField key property path group placed a).2
            (propertyPath property (path.field key) a).1 :=
          (propertyPath_takes quiet_empty property key path a).2.later
            (propertyPath_extends property (path.field key) a) (compile_extends property _ _)
        have hStep := takes_optional hField (quiet_absentField placed group key property) hSource
        exact hStep.append (Or.inl rfl) (hRest placed)

/-! ## Nodes -/

/-- The flag of an object is cleared as the object opens. -/
theorem opening_takes (properties : List (String × Schema)) (path : Path) (a : Allocation) :
    Takes path a (openGroup properties a).2 (opening (openGroup properties a).1) := by
  unfold openGroup
  split
  · exact {
      flags := ⟨1, rfl, rfl⟩
      slots := ⟨0, rfl, List.nil_sublist _⟩
      hoisted := ⟨[], (List.append_nil _).symm, fun _ hPath => absurd hPath List.not_mem_nil⟩
      paths := fun _ hPath => absurd hPath List.not_mem_nil }
  · exact (Quiet.addText quiet_empty _).takes path a

/-- A loop enters the slot handed out for it, and its items start there. -/
theorem loop_takes {items : Schema} (hItems : items.CompilesFresh) (path : Path)
    (a : Allocation) :
    Takes path a (items.compile (.item a.nextLoop.1) a.nextLoop.2).2
      (Fragment.of (.loop path a.nextLoop.1
        (items.compile (.item a.nextLoop.1) a.nextLoop.2).1.steps)) := by
  have hItem := hItems (.item a.nextLoop.1) a.nextLoop.2
  generalize items.compile (.item a.nextLoop.1) a.nextLoop.2 = item at hItem
  -- the item starts from the slot, which the loop has taken
  have hSlot : path.StartsFrom a a.nextLoop.2 (.item a.nextLoop.1) :=
    Or.inr (Or.inr ⟨a.loops, rfl, Nat.le_refl _, Nat.lt_succ_self _⟩)
  have hStarts : ∀ q, (Path.item a.nextLoop.1).StartsFrom a.nextLoop.2 item.2 q →
      path.StartsFrom a item.2 q :=
    fun q hPath => hSlot.trans hPath a.extends_nextLoop hItem.extends
  have hCollect {α : Type} {p : Step → List α} (hText : ∀ literal, p (.text literal) = []) :
      (Fragment.of (.loop path a.nextLoop.1 item.1.steps)).collect p =
        p (.loop path a.nextLoop.1 item.1.steps) ++ item.1.collect p := by
    rw [Fragment.collect_of hText, Step.everyStep, List.flatMap_cons]
    rfl
  exact {
    flags := by
      rw [hCollect fun _ => rfl]
      exact hItem.flags
    slots := by
      obtain ⟨n, hLoops, hEntered⟩ := hItem.slots
      refine ⟨n + 1, ?_, ?_⟩
      · rw [hLoops]
        show a.loops + 1 + n = _
        omega
      · rw [hCollect fun _ => rfl, List.range'_succ]
        -- the slot of the loop comes in front of those inside
        exact hEntered.cons_cons a.loops
    hoisted := by
      obtain ⟨paths, hHoisted, hPaths⟩ := hItem.hoisted
      exact ⟨paths, hHoisted, fun q hPath => hStarts q (hPaths q hPath)⟩
    paths := by
      intro q hPath
      rw [hCollect fun _ => rfl] at hPath
      rcases List.mem_cons.mp hPath with rfl | hInner
      · exact Or.inl rfl
      · exact hStarts q (hItem.paths q hInner) }

/-- The steps of a node use what is handed out for them. -/
theorem compile_takes (s : Schema) : s.CompilesFresh := by
  induction s using node_induction with
  | step s ih =>
    intro path a
    obtain ⟨notes, hCompile⟩ := compile_eq s path a
    rw [hCompile]
    apply Takes.ofNoted
    generalize a.noteAll notes = a
    generalize s.node = node at ih
    -- leaves take nothing; objects and loops take one number more than their parts
    cases node with
    | silent => exact quiet_empty.takes path a
    | generic =>
      show Takes path a a (Fragment.of (.generic path))
      exact takes_leaf rfl rfl rfl rfl a
    | scalar writer guard =>
      refine Takes.guarded ?_ guard
      cases writer <;> exact takes_leaf rfl rfl rfl rfl a
    | date guard =>
      refine Takes.guarded ?_ guard
      exact takes_leaf rfl rfl rfl rfl a
    | joined writer guard =>
      -- the slot is handed out, but no step enters it
      refine Takes.guarded (Takes.nextLoop ?_) guard
      cases writer <;> exact takes_leaf rfl rfl rfl rfl a
    | object properties guard =>
      have hOpening := opening_takes properties path a
      have hFields := compileFields_takes ih path (openGroup properties a).1 false
        (openGroup properties a).2
      exact ((hOpening.append (Or.inl rfl) hFields).addText _).guarded guard
    | loop items guard =>
      exact (loop_takes (ih items (List.mem_singleton_self _)) path a).guarded guard

end Schema

/-! ## From another allocation -/

namespace Renumbering

/-- The numbers from an allocation on, moved to another one. What was handed
out before stays. -/
def shift (a b : Allocation) : Renumbering where
  groups n := if n < a.groups then n else n - a.groups + b.groups
  loops n := if n < a.loops then n else n - a.loops + b.loops
  aliases n := if n < a.hoisted.length then n else n - a.hoisted.length + b.hoisted.length

/-- It maps what is handed out behind the one to what is handed out behind the
other. -/
theorem shift_moves (a b : Allocation) : (shift a b).Moves a b := by
  have hMoved : ∀ start other n : Nat,
      (if start + n < start then start + n else start + n - start + other) = other + n := by
    intro start other n
    rw [if_neg (Nat.not_lt.mpr (Nat.le_add_right start n))]
    omega
  exact ⟨hMoved _ _, hMoved _ _, hMoved _ _⟩

/-- A path that was there before stays where it is. -/
theorem rename_shift {path : Path} {a : Allocation}
    (h : path.InScope (a.scope (List.range a.loops))) (b : Allocation) :
    path.rename (shift a b) = path := by
  induction path with
  | root => rfl
  | «alias» index => exact congrArg Path.alias (if_pos h)
  | item slot => exact congrArg Path.item (if_pos (List.mem_range.mp h))
  | field parent key ih => rw [Path.rename, ih h]

end Renumbering

/-- Everything handed out by compiling at a path is new, and flags and slots
are used no more than once. -/
structure UsedOnce (path : Path) (a : Allocation) (r : Fragment × Allocation) : Prop where
  grows : a.Extends r.2
  flags : ∀ flag ∈ r.1.collect Step.clears, a.groups ≤ flag ∧ flag < r.2.groups
  flagsOnce : (r.1.collect Step.clears).Nodup
  slots : ∀ slot ∈ r.1.collect Step.enters, a.loops ≤ slot ∧ slot < r.2.loops
  slotsOnce : (r.1.collect Step.enters).Nodup
  /-- The path itself may start from an earlier alias, but nothing else does. -/
  aliases : ∀ q ∈ r.1.collect Step.reads ++ r.2.hoisted.drop a.hoisted.length, ∀ index,
    q.base = .alias index → q.base = path.base ∨
      (a.hoisted.length ≤ index ∧ index < r.2.hoisted.length)

/-- What compiling yields from two allocations is the same but for the numbers
handed out on the way, which are as many and lie one behind the other. -/
structure Relocated (a b : Allocation) (r other : Fragment × Allocation) : Prop where
  steps : other.1 = r.1.rename (.shift a b)
  aliases : other.2.hoisted.drop b.hoisted.length =
    (r.2.hoisted.drop a.hoisted.length).map (Path.rename (.shift a b))
  groups : other.2.groups - b.groups = r.2.groups - a.groups
  loops : other.2.loops - b.loops = r.2.loops - a.loops

/-- What is used in turn is used once. -/
theorem Takes.usedOnce {path : Path} {a b : Allocation} {f : Fragment} (h : Takes path a b f) :
    UsedOnce path a (f, b) := by
  obtain ⟨n, hGroups, hFlags⟩ := h.flags
  obtain ⟨m, hLoops, hSlots⟩ := h.slots
  obtain ⟨paths, hHoisted, hPaths⟩ := h.hoisted
  have hNew : b.hoisted.drop a.hoisted.length = paths := by
    rw [hHoisted, List.drop_left]
  refine ⟨h.extends, ?_, ?_, ?_, ?_, ?_⟩
  · intro flag hFlag
    rw [hFlags] at hFlag
    show _ ∧ flag < b.groups
    rw [hGroups]
    exact List.mem_range'_1.mp hFlag
  · rw [hFlags]
    exact List.nodup_range'
  · intro slot hSlot
    show _ ∧ slot < b.loops
    rw [hLoops]
    exact List.mem_range'_1.mp (hSlots.subset hSlot)
  · exact hSlots.nodup List.nodup_range'
  · -- an alias that is read is where the path starts, or was handed out
    intro q hPath index hBase
    have hStart : path.StartsFrom a b q := by
      rcases List.mem_append.mp hPath with hRead | hAlias
      · exact h.paths q hRead
      · rw [hNew] at hAlias
        exact hPaths q hAlias
    rcases hStart with hSame | ⟨other, hOther, hRange⟩ | ⟨slot, hOther, -⟩
    · exact Or.inl hSame
    · rw [hBase] at hOther
      cases hOther
      exact Or.inr hRange
    · rw [hBase] at hOther
      cases hOther

/-- The same steps with other numbers, told without the numbers before the
start. -/
theorem Renumbering.SameSteps.relocated {a b : Allocation} {r other : Fragment × Allocation}
    (h : (Renumbering.shift a b).SameSteps a b r other) : Relocated a b r other := by
  obtain ⟨hSteps, ⟨n, hGroups, hGroups'⟩, ⟨m, hLoops, hLoops'⟩, paths, hPaths, hPaths'⟩ := h
  refine ⟨hSteps.symm, ?_, by omega, by omega⟩
  rw [hPaths, hPaths', List.drop_left, List.drop_left]

/-- **Compiling can be moved.** Wherever a schema is compiled, from whatever
allocation, nothing that was handed out before is taken back or used anew:
every flag cleared, every slot entered and every alias read, at any depth, was
handed out on the way, unless it is where the path itself starts, and no flag
is cleared and no slot entered by two steps. If the alias or the slot of the
path has been handed out, then from any other allocation come the same steps
and the same aliases, with the numbers handed out on the way moved there. -/
theorem Schema.compile_relocates (s : Schema) (path : Path) (a : Allocation) :
    UsedOnce path a (s.compile path a) ∧
      (path.InScope (a.scope (List.range a.loops)) →
        ∀ b, Relocated a b (s.compile path a) (s.compile path b)) := by
  refine ⟨(s.compile_takes path a).usedOnce, fun hPath b => ?_⟩
  have hSame := Variant.compiledAlike (Renumbering.shift_moves a b) Leeway.unnoticed_none s s
    (.refl s) path a b (.refl _ a b)
  -- the path was there before, so moving the numbers leaves it where it is
  rw [Renumbering.rename_shift hPath b] at hSame
  exact hSame.relocated

/-- An object with a property that may be absent, one that is an object and a
list of such objects, read through an alias: behind that alias alone, and
behind a flag, two loops and another alias. -/
theorem Schema.compile_relocates_behind :
    let text := Schema.scalar (.string none) {}
    let part := Schema.object [("a", text.withMarks { optional := true })] [] false {}
    let s := Schema.object [("a", text.withMarks { optional := true }), ("b", part),
      ("c", .array part {})] ["b", "c"] false {}
    let a : Allocation := { hoisted := [.field .root "d"] }
    let b : Allocation :=
      { groups := 1, loops := 2, hoisted := [.field .root "d", .field .root "e"] }
    (Path.alias 0).InScope (a.scope (List.range a.loops)) ∧
      Relocated a b (s.compile (.alias 0) a) (s.compile (.alias 0) b) := by
  intro text part s a b
  have hPath : (Path.alias 0).InScope (a.scope (List.range a.loops)) := Nat.one_pos
  exact ⟨hPath, (s.compile_relocates (.alias 0) a).2 hPath b⟩

end JsonStencil
