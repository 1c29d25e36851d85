import JsonStencil.Plan.Step

/-!
# Fragments

A fragment is a run of steps that is put together piece by piece. Literal
text is folded as it arrives: an empty text leaves no step, and a text behind
another one becomes one step with it.

Main definitions:

* `Fragment` — a run of steps.
* `Fragment.addText`, `push`, `append`, `guarded` — the ways to build one.

Main results:

* `push_text` — pushing a text step is adding its text.
-/

namespace JsonStencil

/-- A run of steps with neighbouring texts folded together. -/
structure Fragment where
  steps : List Step := []
deriving Repr, Inhabited

namespace Fragment

/-- Puts a text behind the last step, or into it if that is a text. -/
def joinText (text : String) : List Step → List Step
  | [] => [.text text]
  | [.text last] => [.text (last ++ text)]
  | step :: rest => step :: joinText text rest

/-- Adds a text at the end. -/
def addText (f : Fragment) (text : String) : Fragment :=
  if text = "" then f else ⟨joinText text f.steps⟩

/-- Adds a step at the end. -/
def push (f : Fragment) (step : Step) : Fragment :=
  match step with
  | .text text => f.addText text
  | step => ⟨f.steps ++ [step]⟩

/-- Adds the steps of another fragment at the end. -/
def append (f other : Fragment) : Fragment := other.steps.foldl push f

/-- The fragment of some steps pushed in turn. -/
def ofSteps (steps : List Step) : Fragment := steps.foldl push {}

/-- The fragment of one step. -/
def of (step : Step) : Fragment := ofSteps [step]

/-- Whether the fragment writes nothing at all. -/
def isEmpty (f : Fragment) : Bool := f.steps.isEmpty

/-- The fragment behind a guard, if there is one. -/
def guarded (f : Fragment) (path : Path) : Option Guard → Fragment
  | some guard => of (.guarded path guard f.steps)
  | none => f

@[simp] theorem push_text (f : Fragment) (text : String) :
    f.push (.text text) = f.addText text := rfl

end Fragment

end JsonStencil
