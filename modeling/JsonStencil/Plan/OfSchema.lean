import JsonStencil.Plan.Allocation
import JsonStencil.Schema.Normal

/-!
# The plan of a schema

Compiling walks the schema once. Every node is peeled first, and the null and
undefined members that peeling removes become a guard around the steps of the
node itself. An object becomes its labels and values in the order of
declaration; an array becomes a join where its items are written directly and
a loop otherwise; what has no encoding of its own is left to the generic text.

A comma between two fields is literal as soon as some field has been written
whatever the value. Before that it hangs on which optional fields are
present, so it goes through the group flag of the object. An object inside an
object is bound to an alias, except inside a loop, where its path changes from
item to item.

Main definitions:

* `Schema.compile` — the fragment of a node at a path.
* `Schema.compileObject` / `Schema.compileArray` — objects and arrays under
  a guard.
* `Plan.ofSchema` — the finished plan.
-/

namespace JsonStencil

namespace Schema

/-! ## Leaves -/

/-- What a guard writes: the default of the peeled node, else the default of
the node as declared, else `null`. -/
def defaultText (effective declared : Schema) : String :=
  match effective.default, declared.default with
  | some default, _ => default.text
  | none, some default => default.text
  | none, none => "null"

/-- One step behind a guard that writes the default of the node. -/
def leaf (step : Step) (effective declared : Schema) (path : Path)
    (null undefined : Bool) : Fragment :=
  (Fragment.of step).guarded path
    (Guard.of? null undefined (defaultText effective declared))

/-- Dates, strings of digits, and whatever has no encoding of its own. The
first two are unions that peeling leaves alone, so their own null and
undefined members count beside those of a wrapper. -/
def compileOther (effective declared : Schema) (path : Path) (null undefined : Bool)
    (a : Allocation) : Fragment × Allocation :=
  let nullish := effective.nullishMembers
  if effective.isDateLike || effective.isDate then
    (leaf (.date path) effective declared path (null || nullish.1)
      (undefined || nullish.2), a)
  else if effective.isIntegerString then
    (leaf (.raw path) effective declared path (null || nullish.1)
      (undefined || nullish.2), a)
  else (Fragment.of (.generic path), a.note (.fallback effective.kindName path))

/-- The step that joins the items of an array, for items that are written
directly. -/
def joinStep? (items : Schema) (path : Path) : Option Step :=
  match items with
  | .scalar (.string _) _ => some (.joinQuoted path)
  | .scalar .number _ | .scalar .boolean _ | .scalar .bigint _ => some (.joinRaw path)
  | _ => if items.isIntegerString then some (.joinRaw path) else none

/-! ## Fields -/

/-- What a field writes in front of its label. -/
def separator (placed : Bool) (group : Option Nat) : Fragment :=
  match placed, group with
  | true, _ => ({} : Fragment).addText ","
  | false, some group => Fragment.of (.comma group)
  | false, none => {}

/-- The text in front of a field's value. -/
def label (key : String) : String := Json.literal .json key ++ ":"

/-- What is written in place of an absent field: nothing, or its default. -/
def absentField (placed : Bool) (group : Option Nat) (key : String) (property : Schema) :
    Fragment :=
  match property.default with
  | some default => ((separator placed group).addText (label key)).addText default.text
  | none => {}

/-- Hands out the group flag of an object that has an optional property. -/
def openGroup (properties : List (String × Schema)) (a : Allocation) :
    Option Nat × Allocation :=
  if properties.any fun property => property.2.optional then
    let next := a.nextGroup
    (some next.1, next.2)
  else (none, a)

/-- What an object writes in front of its fields. -/
def opening (group : Option Nat) : Fragment :=
  match group with
  | some group => (Fragment.of (.reset group)).addText "\x7b"
  | none => ({} : Fragment).addText "\x7b"

/-- The path from which a property is read: an alias for an object outside
of loops. -/
def propertyPath (property : Schema) (name : Path) (a : Allocation) : Path × Allocation :=
  if property.isObjectTyped && !name.inLoop then a.hoist name else (name, a)

/-! ## Nodes -/

mutual

/-- The steps that write the value at a path, as the node describes it. -/
def compile (s : Schema) (path : Path) (a : Allocation) : Fragment × Allocation :=
  have _hweight := weight_peel_le s
  let null := s.peel.nullable
  let undefined := s.peel.undefinable
  let guard := Guard.of? null undefined "null"
  match _h : s.peel.schema with
  | .scalar (.string _) _ => (leaf (.quoted path) s.peel.schema s path null undefined, a)
  | .scalar .number _ | .scalar .boolean _ | .scalar .bigint _ =>
    (leaf (.raw path) s.peel.schema s path null undefined, a)
  | .scalar .null _ => (Fragment.of (.raw path), a)
  -- a node that is never defined writes nothing
  | .scalar .undefined _ => ({}, a)
  | .object _ _ _ _ => compileObject s.peel.schema path guard a
  | .array items _ => compileArray items path guard a
  | .intersection members _ =>
    if anyObjectTyped members then compileObject s.peel.schema path guard a
    else compileOther s.peel.schema s path null undefined a
  | _ => compileOther s.peel.schema s path null undefined a
termination_by 3 * s.weight + 2
decreasing_by
  · omega
  · rw [_h, weight] at _hweight
    omega
  · omega

/-- The steps that write an object, an intersection being merged into one.
Without an object to write, or where undeclared keys may stand in the value,
the generic text serves. -/
def compileObject (s : Schema) (path : Path) (guard : Option Guard) (a : Allocation) :
    Fragment × Allocation :=
  have _hweight := weight_merge_le s
  let a := a.noteAll (s.passedOver.map .passedOver)
  match _h : s.merge with
  | .object properties _ additional _ =>
    -- undeclared keys are only known to the value
    if additional then (Fragment.of (.generic path), a)
    else
      let opened := openGroup properties a
      let fields := compileFields properties path opened.1 false opened.2
      ((((opening opened.1).append fields.1).addText "\x7d").guarded path guard, fields.2)
  | _ => (Fragment.of (.generic path), a)
termination_by 3 * s.weight + 1
decreasing_by
  rw [_h, weight] at _hweight
  omega

/-- The fields of an object; `placed` tells whether one has been written
whatever the value. -/
def compileFields (properties : List (String × Schema)) (path : Path) (group : Option Nat)
    (placed : Bool) (a : Allocation) : Fragment × Allocation :=
  match properties with
  | [] => ({}, a)
  | (key, property) :: rest =>
    have _hweight := weight_pos property
    if property.isUndefined then compileFields rest path group placed a
    else
      let source := propertyPath property (path.field key) a
      let value := compile property source.1 source.2
      let field := ((separator placed group).addText (label key)).append value.1
      if property.optional then
        -- whether this field is written is known only when the plan is run
        let step := .optional source.1 field.steps (absentField placed group key property).steps
        let others := compileFields rest path group placed value.2
        ((Fragment.of step).append others.1, others.2)
      else
        let others := compileFields rest path group true value.2
        (field.append others.1, others.2)
termination_by 3 * weightProperties properties + 3
decreasing_by all_goals (simp only [weightProperties]; omega)

/-- The steps that write an array with the given items. Every array takes a
loop slot, whether it needs one or not. -/
def compileArray (items : Schema) (path : Path) (guard : Option Guard) (a : Allocation) :
    Fragment × Allocation :=
  let next := a.nextLoop
  match joinStep? items path with
  | some step => ((Fragment.of step).guarded path guard, next.2)
  | none =>
    let item := compile items (.item next.1) next.2
    ((Fragment.of (.loop path next.1 item.1.steps)).guarded path guard, item.2)
termination_by 3 * items.weight + 3
decreasing_by all_goals omega

end

end Schema

/-! ## Plans -/

namespace Plan

/-- The plan of a schema together with the notes of the compiler. -/
def withNotes (s : Schema) : Plan × List Note :=
  let root := s.compile .root {}
  let plan := root.2.finish root.1
  let summary := Note.compiled s.kindName plan.steps.length plan.groups plan.aliases.length
    plan.loops
  (plan, root.2.notes ++ [summary])

/-- The plan of a schema. -/
def ofSchema (s : Schema) : Plan := (withNotes s).1

end Plan

end JsonStencil
