import JsonStencil.Text.Shown

/-!
# Access paths

A path says where a value is found while an encoder runs: it starts from the
value that is encoded, from an alias bound before the first step, or from the
current item of a loop, and follows keys from there.

Main definitions:

* `Path` — access paths.
* `Path.base` / `Path.keys` — where a path starts and what it follows.
* `Path.text` — the path as a listing shows it.
-/

namespace JsonStencil

/-- Where a value is found while an encoder runs. -/
inductive Path where
  /-- The value that is encoded. -/
  | root
  /-- The alias of a number, bound once before the first step. -/
  | alias (index : Nat)
  /-- The current item of the loop of a number. -/
  | item (slot : Nat)
  /-- What a path finds under a key. -/
  | field (parent : Path) (key : String)
deriving DecidableEq, Repr, Inhabited

namespace Path

/-- The root, alias or item that a path starts from. -/
def base : Path → Path
  | .field parent _ => parent.base
  | other => other

/-- The keys that a path follows, from its base on. -/
def keys : Path → List String
  | .field parent key => parent.keys ++ [key]
  | _ => []

/-- Whether a path starts from the item of a loop. -/
def inLoop (p : Path) : Bool :=
  match p.base with
  | .item _ => true
  | _ => false

/-- Whether a key needs brackets in a listing: it holds a space, a tab, a
line feed or a hyphen. -/
def isSpecial (key : String) : Bool :=
  key.toList.any fun c => c == ' ' || c == '\t' || c == '\n' || c == '-'

/-- The path as a listing shows it. -/
def text : Path → String
  | .root => "v"
  | .alias index => s!"s{index}"
  | .item slot => s!"ar{slot}p"
  | .field parent key =>
    if isSpecial key then parent.text ++ "[" ++ Text.shown key ++ "]"
    else parent.text ++ "." ++ key

end Path

end JsonStencil
