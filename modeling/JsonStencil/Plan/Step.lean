import JsonStencil.Plan.Path
import JsonStencil.Value

/-!
# Encoding plans

A plan is what a schema is compiled to: steps that write text, and how many
group flags, aliases and loop slots they use. A group flag records whether an
object level has written a field yet, so that a comma before a field whose
position is not known beforehand can be decided while the plan runs.

Main definitions:

* `Guard` — a check for null and undefined with a text to write instead.
* `Step` / `Plan` — steps and finished plans.
-/

namespace JsonStencil

/-! ## Guards -/

/-- A check for null and undefined; where it hits, the fallback text is
written in place of the value. -/
structure Guard where
  null : Bool
  undefined : Bool
  fallback : String
deriving DecidableEq, Repr, Inhabited

namespace Guard

/-- A guard for the flags, or none if both are off. -/
def of? (null undefined : Bool) (fallback : String) : Option Guard :=
  if null || undefined then some ⟨null, undefined, fallback⟩ else none

/-- Whether the check hits. -/
def hits (g : Guard) (v : Value) : Bool :=
  (g.null && v.isNull) || (g.undefined && v.isUndefined)

end Guard

/-! ## Steps -/

/-- One step of a plan. -/
inductive Step where
  /-- Writes a text. -/
  | text (literal : String)
  /-- Writes a string value between quotes. -/
  | quoted (path : Path)
  /-- Writes a scalar as it stands. -/
  | raw (path : Path)
  /-- Writes an instant as its quoted text. -/
  | date (path : Path)
  /-- Writes the generic text of a value. -/
  | generic (path : Path)
  /-- Writes an array of strings. -/
  | joinQuoted (path : Path)
  /-- Writes an array of scalars. -/
  | joinRaw (path : Path)
  /-- Clears a group flag: an object of this level starts. -/
  | reset (group : Nat)
  /-- Writes a comma if the group flag is set, and sets it. -/
  | comma (group : Nat)
  /-- Writes the fallback where the guard hits, else runs the steps. -/
  | guarded (path : Path) (guard : Guard) (steps : List Step)
  /-- Runs one of two lists of steps, by the presence of a value. -/
  | optional (path : Path) (present absent : List Step)
  /-- Runs the steps for every item of an array. -/
  | loop (path : Path) (slot : Nat) (item : List Step)
deriving Repr

namespace Step

instance : Inhabited Step := ⟨.text ""⟩

/-- The UTF-8 length of the text that a step writes whatever the value; only
that of a text step is known. -/
def literalLength : Step → Nat
  | .text literal => literal.utf8ByteSize
  | _ => 0

end Step

/-! ## Plans -/

/-- The steps of a plan and what they rely on: the number of group flags, the
paths bound to aliases in their order, and the number of loop slots. -/
structure Plan where
  steps : List Step
  groups : Nat
  aliases : List Path
  loops : Nat
deriving Repr, Inhabited

/-- The UTF-8 length of the text that a plan writes whatever the value. -/
def Plan.literalLength (p : Plan) : Nat :=
  p.steps.foldl (fun total step => total + step.literalLength) 0

end JsonStencil
