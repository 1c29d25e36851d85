import JsonStencil.Proofs.Fragments
import JsonStencil.Proofs.Nodes

/-!
# Other numbers in a plan

Compiling hands out numbers from where the allocation stands. Steps made from
another allocation have other numbers in them, and nothing else should differ.
What changes the numbers of a plan is a renumbering: it maps the numbers of
group flags, loop slots and aliases in every path and step, at any depth, and
it goes along with all the ways to build a fragment.

Two allocations are in step while the same has been handed out behind their
starts, and a renumbering moves the one start to the other if it maps the
numbers handed out behind the one to those handed out behind the other. What
it does with the numbers before the start is left open.

Main definitions:

* `Renumbering` — a map of group flags, loop slots and aliases.
* `Path.rename` / `Step.rename` / `Fragment.rename` — other numbers for what
  is used.
* `Renumbering.Moves` / `Renumbering.InStep` — allocations that hand out the
  same numbers, up to a renumbering.

Main results:

* `Fragment.rename_append` and the like — renumbering goes along with building
  fragments.
* `InStep.nextGroup` / `InStep.nextLoop` / `InStep.hoist` — what is handed out
  in step is the same, renumbered.
-/

namespace JsonStencil

/-! ## Renumbering -/

/-- Other numbers for group flags, loop slots and aliases. -/
structure Renumbering where
  groups : Nat → Nat
  loops : Nat → Nat
  aliases : Nat → Nat

/-- The renumbering that keeps every number. -/
def Renumbering.keep : Renumbering := ⟨id, id, id⟩

/-- A path with another number for its alias or item. -/
def Path.rename (ρ : Renumbering) : Path → Path
  | .root => .root
  | .alias index => .alias (ρ.aliases index)
  | .item slot => .item (ρ.loops slot)
  | .field parent key => .field (parent.rename ρ) key

mutual

/-- A step with other numbers, at every depth. -/
def Step.rename (ρ : Renumbering) : Step → Step
  | .text literal => .text literal
  | .quoted path => .quoted (path.rename ρ)
  | .raw path => .raw (path.rename ρ)
  | .date path => .date (path.rename ρ)
  | .generic path => .generic (path.rename ρ)
  | .joinQuoted path => .joinQuoted (path.rename ρ)
  | .joinRaw path => .joinRaw (path.rename ρ)
  | .reset group => .reset (ρ.groups group)
  | .comma group => .comma (ρ.groups group)
  | .guarded path guard steps => .guarded (path.rename ρ) guard (Step.renameAll ρ steps)
  | .optional path present absent =>
    .optional (path.rename ρ) (Step.renameAll ρ present) (Step.renameAll ρ absent)
  | .loop path slot item => .loop (path.rename ρ) (ρ.loops slot) (Step.renameAll ρ item)

/-- Every step of a list with other numbers. -/
def Step.renameAll (ρ : Renumbering) : List Step → List Step
  | [] => []
  | step :: rest => step.rename ρ :: Step.renameAll ρ rest

end

/-- A fragment with other numbers. -/
def Fragment.rename (ρ : Renumbering) (f : Fragment) : Fragment := ⟨Step.renameAll ρ f.steps⟩

theorem Fragment.steps_rename (ρ : Renumbering) (f : Fragment) :
    (f.rename ρ).steps = Step.renameAll ρ f.steps := rfl

section Keep

/-- A path that keeps its numbers. -/
@[simp] theorem Path.rename_keep (path : Path) : path.rename .keep = path := by
  induction path with
  | root => rfl
  | «alias» index => rfl
  | item slot => rfl
  | field parent key ih => rw [rename, ih]

mutual

/-- A step that keeps its numbers, at every depth. -/
theorem Step.rename_keep : ∀ step : Step, step.rename .keep = step
  | .text _ | .reset _ | .comma _ => rfl
  | .quoted path | .raw path | .date path | .generic path | .joinQuoted path
  | .joinRaw path => by rw [rename, path.rename_keep]
  | .guarded path guard steps => by rw [rename, path.rename_keep, Step.renameAll_keep steps]
  | .optional path present absent => by
    rw [rename, path.rename_keep, Step.renameAll_keep present, Step.renameAll_keep absent]
  | .loop path slot item => by
    rw [rename, path.rename_keep, Step.renameAll_keep item]
    rfl

theorem Step.renameAll_keep : ∀ steps : List Step, Step.renameAll .keep steps = steps
  | [] => rfl
  | step :: rest => by rw [renameAll, Step.rename_keep step, Step.renameAll_keep rest]

end

theorem Fragment.rename_keep (f : Fragment) : f.rename .keep = f := by
  rw [rename, Step.renameAll_keep]

end Keep

/-- A path stays inside of loops, or outside of them. -/
@[simp] theorem Path.inLoop_rename (ρ : Renumbering) (path : Path) :
    (path.rename ρ).inLoop = path.inLoop := by
  induction path with
  | root => rfl
  | «alias» index => rfl
  | item slot => rfl
  | field parent key ih => exact ih

/-! ## Building fragments -/

namespace Fragment

variable (ρ : Renumbering)

/-- A text is joined to the last step, which is a text before and after. -/
theorem renameAll_joinText (literal : String) (steps : List Step) :
    Step.renameAll ρ (joinText literal steps) = joinText literal (Step.renameAll ρ steps) := by
  fun_induction joinText literal steps with
  | case1 => rfl
  | case2 last => rfl
  | case3 step rest hOther ih =>
    rw [Step.renameAll, Step.renameAll, ih, joinText]
    -- the step is no text at the end, before or after
    intro last hStep hRest
    cases rest with
    | nil =>
      cases step with
      | text literal => exact hOther literal rfl rfl
      | _ => cases hStep
    | cons _ _ => cases hRest

/-- A text has no numbers. -/
@[simp] theorem rename_addText (f : Fragment) (literal : String) :
    (f.addText literal).rename ρ = (f.rename ρ).addText literal := by
  unfold addText rename
  split
  · rfl
  · rw [renameAll_joinText]

/-- Two lists of steps in turn. -/
theorem renameAll_append (first second : List Step) :
    Step.renameAll ρ (first ++ second) = Step.renameAll ρ first ++ Step.renameAll ρ second := by
  induction first with
  | nil => rfl
  | cons step rest ih =>
    rw [List.cons_append, Step.renameAll, Step.renameAll, ih, List.cons_append]

/-- A step pushed brings its numbers. -/
theorem rename_push (f : Fragment) (step : Step) :
    (f.push step).rename ρ = (f.rename ρ).push (step.rename ρ) := by
  cases step with
  | text literal => exact rename_addText ρ f literal
  | _ =>
    unfold push rename
    rw [renameAll_append]
    rfl

/-- A fragment put behind another one brings its numbers. -/
@[simp] theorem rename_append (f other : Fragment) :
    (f.append other).rename ρ = (f.rename ρ).append (other.rename ρ) := by
  obtain ⟨steps⟩ := other
  unfold append
  dsimp only [rename]
  -- the fragment grows with every step that is pushed
  induction steps generalizing f with
  | nil => rfl
  | cons step rest ih =>
    rw [List.foldl_cons, ih, Step.renameAll, List.foldl_cons]
    exact congrArg (fun start : Fragment => (Step.renameAll ρ rest).foldl push start)
      (rename_push ρ f step)

@[simp] theorem rename_of (step : Step) : (of step).rename ρ = of (step.rename ρ) :=
  rename_push ρ {} step

/-- A guard reads the path with its new numbers. -/
@[simp] theorem rename_guarded (f : Fragment) (path : Path) (guard : Option Guard) :
    (f.guarded path guard).rename ρ = (f.rename ρ).guarded (path.rename ρ) guard := by
  cases guard with
  | none => rfl
  | some guard => exact rename_of ρ _

end Fragment

namespace Writer

@[simp] theorem rename_step (ρ : Renumbering) (writer : Writer) (path : Path) :
    (writer.step path).rename ρ = writer.step (path.rename ρ) := by
  cases writer <;> rfl

@[simp] theorem rename_joinStep (ρ : Renumbering) (writer : Writer) (path : Path) :
    (writer.joinStep path).rename ρ = writer.joinStep (path.rename ρ) := by
  cases writer <;> rfl

end Writer

/-! ## Allocations in step -/

namespace Renumbering

/-- What is handed out behind the one allocation is mapped to what is handed
out behind the other. -/
structure Moves (ρ : Renumbering) (a b : Allocation) : Prop where
  groups : ∀ n, ρ.groups (a.groups + n) = b.groups + n
  loops : ∀ n, ρ.loops (a.loops + n) = b.loops + n
  aliases : ∀ n, ρ.aliases (a.hoisted.length + n) = b.hoisted.length + n

/-- As much has been handed out behind the one start as behind the other, and
the paths bound to aliases are the same but for the numbers in them. -/
structure InStep (ρ : Renumbering) (start other a b : Allocation) : Prop where
  groups : ∃ n, a.groups = start.groups + n ∧ b.groups = other.groups + n
  loops : ∃ n, a.loops = start.loops + n ∧ b.loops = other.loops + n
  hoisted : ∃ paths, a.hoisted = start.hoisted ++ paths ∧
    b.hoisted = other.hoisted ++ paths.map (Path.rename ρ)

variable {ρ : Renumbering} {start other a b : Allocation}

/-- Keeping every number moves an allocation to itself. -/
theorem moves_keep (a : Allocation) : keep.Moves a a := ⟨fun _ => rfl, fun _ => rfl, fun _ => rfl⟩

namespace InStep

/-- The starts themselves are in step. -/
theorem refl (ρ : Renumbering) (start other : Allocation) :
    ρ.InStep start other start other where
  groups := ⟨0, rfl, rfl⟩
  loops := ⟨0, rfl, rfl⟩
  hoisted := ⟨[], (List.append_nil _).symm, (List.append_nil _).symm⟩

/-- Notes are no numbers. -/
theorem noteAll (h : ρ.InStep start other a b) (notes others : List Note) :
    ρ.InStep start other (a.noteAll notes) (b.noteAll others) :=
  ⟨h.groups, h.loops, h.hoisted⟩

section Moves

variable (hMoves : ρ.Moves start other) (h : ρ.InStep start other a b)

include hMoves h

/-- The next flags correspond, and what is handed out is in step again. -/
theorem nextGroup : ρ.groups a.nextGroup.1 = b.nextGroup.1 ∧
    ρ.InStep start other a.nextGroup.2 b.nextGroup.2 := by
  obtain ⟨n, ha, hb⟩ := h.groups
  refine ⟨?_, ⟨n + 1, ?_, ?_⟩, h.loops, h.hoisted⟩
  · show ρ.groups a.groups = b.groups
    rw [ha, hb, hMoves.groups]
  · exact congrArg (· + 1) ha
  · exact congrArg (· + 1) hb

/-- So do the next slots. -/
theorem nextLoop : ρ.loops a.nextLoop.1 = b.nextLoop.1 ∧
    ρ.InStep start other a.nextLoop.2 b.nextLoop.2 := by
  obtain ⟨n, ha, hb⟩ := h.loops
  refine ⟨?_, h.groups, ⟨n + 1, ?_, ?_⟩, h.hoisted⟩
  · show ρ.loops a.loops = b.loops
    rw [ha, hb, hMoves.loops]
  · exact congrArg (· + 1) ha
  · exact congrArg (· + 1) hb

/-- So do aliases that are bound to corresponding paths. -/
theorem hoist (path : Path) : (a.hoist path).1.rename ρ = (b.hoist (path.rename ρ)).1 ∧
    ρ.InStep start other (a.hoist path).2 (b.hoist (path.rename ρ)).2 := by
  obtain ⟨paths, ha, hb⟩ := h.hoisted
  refine ⟨?_, h.groups, h.loops, paths ++ [path], ?_, ?_⟩
  · show Path.alias (ρ.aliases a.hoisted.length) = .alias b.hoisted.length
    rw [ha, hb, List.length_append, List.length_append, List.length_map, hMoves.aliases]
  · show a.hoisted ++ [path] = _
    rw [ha, List.append_assoc]
  · show b.hoisted ++ [path.rename ρ] = _
    rw [hb, List.map_append, List.append_assoc]
    rfl

end Moves

end InStep

end Renumbering

end JsonStencil
