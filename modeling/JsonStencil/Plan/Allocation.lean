import JsonStencil.Plan.Fragment

/-!
# Allocation of plan indices

While a schema is compiled, group flags, loop slots and aliases are handed
out in order and never twice. An allocation holds how many there are so far,
which paths the aliases stand for, and notes on what the compiler did.

Main definitions:

* `Note` — what the compiler reports of its work.
* `Allocation` — the indices handed out so far.
* `Allocation.nextGroup`, `nextLoop`, `hoist` — handing out one more.
* `Allocation.finish` — the plan of a fragment that uses them.
-/

namespace JsonStencil

/-! ## Notes -/

/-- What the compiler reports of its work. -/
inductive Note where
  /-- A member without properties was left out of a merge. -/
  | passedOver (kind : String)
  /-- A path was bound to an alias. -/
  | hoisted (path : Path) (index : Nat)
  /-- A node has no encoding of its own. -/
  | fallback (kind : String) (path : Path)
  /-- A plan is complete. -/
  | compiled (kind : String) (steps groups aliases loops : Nat)
deriving DecidableEq, Repr

namespace Note

/-- How important a note is. -/
inductive Level where
  | debug
  | trace
deriving DecidableEq, Repr

/-- The name of a level. -/
def Level.name : Level → String
  | .debug => "DEBUG"
  | .trace => "TRACE"

/-- The level of a note. -/
def level : Note → Level
  | .passedOver _ | .compiled _ _ _ _ _ => .debug
  | .hoisted _ _ | .fallback _ _ => .trace

/-- The wording of a note. -/
def message : Note → String
  | .passedOver kind => "skipping non-object intersection member of kind `" ++ kind ++ "`"
  | .hoisted path index => "hoisting " ++ path.text ++ s!" as s{index}"
  | .fallback kind path => "generic fallback for `" ++ kind ++ "` at " ++ path.text
  | .compiled kind steps groups aliases loops =>
    "compiled `" ++ kind ++
      s!"` schema: {steps} steps, {groups} group flags, {aliases} aliases, {loops} loops"

end Note

/-! ## Allocations -/

/-- The group flags, loop slots and aliases handed out so far, and the notes
taken. -/
structure Allocation where
  groups : Nat := 0
  loops : Nat := 0
  /-- The path of every alias, in the order of binding. -/
  hoisted : List Path := []
  notes : List Note := []
deriving Repr, Inhabited

namespace Allocation

/-- Takes notes. -/
def noteAll (a : Allocation) (notes : List Note) : Allocation :=
  { a with notes := a.notes ++ notes }

/-- Takes a note. -/
def note (a : Allocation) (n : Note) : Allocation := a.noteAll [n]

/-- Hands out a group flag. -/
def nextGroup (a : Allocation) : Nat × Allocation :=
  (a.groups, { a with groups := a.groups + 1 })

/-- Hands out a loop slot. -/
def nextLoop (a : Allocation) : Nat × Allocation :=
  (a.loops, { a with loops := a.loops + 1 })

/-- Binds a path to the next alias and gives the alias. -/
def hoist (a : Allocation) (path : Path) : Path × Allocation :=
  let index := a.hoisted.length
  (.alias index, { a.note (.hoisted path index) with hoisted := a.hoisted ++ [path] })

/-- The plan of a fragment that uses the indices handed out. -/
def finish (a : Allocation) (root : Fragment) : Plan :=
  { steps := root.steps, groups := a.groups, aliases := a.hoisted, loops := a.loops }

end Allocation

end JsonStencil
