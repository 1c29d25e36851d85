import JsonStencil.Plan.Fragment

/-!
# Running a plan

A run starts from a frame: the value that is encoded, one value for every
alias, one current item for every loop slot and one flag for every group. The
aliases are bound first, in order, so that a later one may start from an
earlier one. The steps then write their texts one behind the other.

A compiled plan never asks for an index that the frame lacks; in a plan put
together by hand that can happen, and the run then ends with the index and
the length that it met.

Main definitions:

* `Value.quotedText`, `rawText`, `dateText`, `joinedText` — how steps write
  a value.
* `Frame` / `Path.resolve` — what a run knows and where it looks.
* `Step.run` / `Step.runAll` — the text of steps and the frame after them.
* `Plan.run` — the text that a plan writes for a value.
-/

namespace JsonStencil

/-! ## Writers -/

namespace Value

/-- A string as a literal; anything else by its generic text. -/
def quotedText (escaping : Json.Escaping) : Value → String
  | .string s => Json.literal escaping s
  | other => other.text

/-- A scalar as it stands, an instant as its text between quotes; a string is
copied without quotes, whatever the escaping. -/
def rawText (_ : Json.Escaping) : Value → String
  | .undefined | .null => "null"
  | .bool true => "true"
  | .bool false => "false"
  | .number n => n.text
  | .bigint n => integerText n
  | .string s => s
  | .instant t => Json.literal .trusted t.text
  | .array items => (Value.array items).text
  | .object entries => (Value.object entries).text

/-- An instant as its text between quotes, a string as a literal, anything
else as it stands. -/
def dateText (escaping : Json.Escaping) : Value → String
  | .instant t => Json.literal .trusted t.text
  | .string s => Json.literal escaping s
  | other => other.rawText escaping

/-- An array of items each of which is written by `item`; anything else by
its generic text. -/
def joinedText (item : Value → String) : Value → String
  | .array items => bracketed (items.map item)
  | other => other.text

end Value

/-! ## Frames -/

/-- What a run knows. -/
structure Frame where
  /-- The value that is encoded. -/
  root : Value
  /-- The values of the aliases bound so far. -/
  aliases : List Value
  /-- The current item of every loop slot. -/
  items : List Value
  /-- Whether the object level of every group has written a field. -/
  groups : List Bool
deriving Repr, Inhabited

/-- An index that is not below the length it was asked of. -/
structure OutOfRange where
  length : Nat
  index : Nat
deriving DecidableEq, Repr

/-- The wording of an index out of range. -/
def OutOfRange.message (e : OutOfRange) : String :=
  s!"index out of bounds: the len is {e.length} but the index is {e.index}"

/-- The entry at an index. -/
def fetch {α : Type} (entries : List α) (index : Nat) : Except OutOfRange α :=
  match entries[index]? with
  | some entry => .ok entry
  | none => .error ⟨entries.length, index⟩

/-- The entries with another one at an index. -/
def store {α : Type} (entries : List α) (index : Nat) (entry : α) :
    Except OutOfRange (List α) :=
  if index < entries.length then .ok (entries.set index entry)
  else .error ⟨entries.length, index⟩

namespace Frame

/-- Sets the current item of a loop slot. -/
def setItem (f : Frame) (slot : Nat) (item : Value) : Except OutOfRange Frame :=
  (store f.items slot item).map fun items => { f with items }

/-- Sets the flag of a group. -/
def setGroup (f : Frame) (group : Nat) (flag : Bool) : Except OutOfRange Frame :=
  (store f.groups group flag).map fun groups => { f with groups }

end Frame

/-- The value that a path finds in a frame. -/
def Path.resolve (f : Frame) : Path → Except OutOfRange Value
  | .root => .ok f.root
  | .alias index => fetch f.aliases index
  | .item slot => fetch f.items slot
  | .field parent key => (parent.resolve f).map fun value => value.get key

/-! ## Steps -/

/-- Runs a body for every item in turn and collects the texts. -/
def overItems (slot : Nat) (body : Frame → Except OutOfRange (String × Frame)) :
    List Value → Frame → Except OutOfRange (List String × Frame)
  | [], f => .ok ([], f)
  | item :: rest, f => do
    let entered ← f.setItem slot item
    let first ← body entered
    let others ← overItems slot body rest first.2
    .ok (first.1 :: others.1, others.2)

mutual

/-- The text that a step writes, and the frame after it. -/
def Step.run (escaping : Json.Escaping) (f : Frame) :
    Step → Except OutOfRange (String × Frame)
  | .text literal => .ok (literal, f)
  | .quoted path => do .ok ((← path.resolve f).quotedText escaping, f)
  | .raw path => do .ok ((← path.resolve f).rawText escaping, f)
  | .date path => do .ok ((← path.resolve f).dateText escaping, f)
  | .generic path => do .ok ((← path.resolve f).text, f)
  | .joinQuoted path => do
    .ok ((← path.resolve f).joinedText (Value.quotedText escaping), f)
  | .joinRaw path => do .ok ((← path.resolve f).joinedText (Value.rawText escaping), f)
  | .reset group => do .ok ("", ← f.setGroup group false)
  | .comma group => do
    -- the first field of a group writes no comma, but every later one does
    if ← fetch f.groups group then .ok (",", f) else .ok ("", ← f.setGroup group true)
  | .guarded path guard steps => do
    if guard.hits (← path.resolve f) then .ok (guard.fallback, f)
    else Step.runAll escaping f steps
  | .optional path present absent => do
    if (← path.resolve f).isUndefined then Step.runAll escaping f absent
    else Step.runAll escaping f present
  | .loop path slot item => do
    match ← path.resolve f with
    | .array items =>
      let texts ← overItems slot (fun entered => Step.runAll escaping entered item) items f
      .ok (bracketed texts.1, texts.2)
    -- what is no array has no items to loop over
    | other => .ok (other.text, f)

/-- The texts of some steps one behind the other. -/
def Step.runAll (escaping : Json.Escaping) (f : Frame) :
    List Step → Except OutOfRange (String × Frame)
  | [] => .ok ("", f)
  | step :: rest => do
    let first ← Step.run escaping f step
    let others ← Step.runAll escaping first.2 rest
    .ok (first.1 ++ others.1, others.2)

end

/-! ## Plans -/

/-- Binds aliases in order, each in the frame that holds those before it. -/
def Frame.bind (f : Frame) : List Path → Except OutOfRange Frame
  | [] => .ok f
  | path :: rest => do
    let value ← path.resolve f
    Frame.bind { f with aliases := f.aliases ++ [value] } rest

namespace Plan

/-- The frame before the aliases are bound: no current items, all flags
off. -/
def emptyFrame (p : Plan) (v : Value) : Frame :=
  { root := v
    aliases := []
    items := List.replicate p.loops .undefined
    groups := List.replicate p.groups false }

/-- The text that a plan writes for a value. -/
def run (p : Plan) (escaping : Json.Escaping) (v : Value) : Except OutOfRange String := do
  let f ← (p.emptyFrame v).bind p.aliases
  let written ← Step.runAll escaping f p.steps
  .ok written.1

end Plan

end JsonStencil
