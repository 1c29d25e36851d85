import JsonStencil.Files.Access
import JsonStencil.Files.Pattern

/-!
# The paths of a pattern

A pattern is followed from directory to directory. A name without wildcards
is looked up; for any other the names in the directory are tried in
ascending order, and what lies below a name comes before the next name. The
directory itself and the one above are tried too, and first, where a pattern
spells out the point that their names begin with. For `**` every name is
tried against the pattern behind it, and every directory is entered; if
nothing stands behind it the directories themselves are the results.

Paths are spelled as they were reached: a name in the directory that the
search starts from is spelled alone.

Main definitions:

* `Files.Unlisted` — a directory whose names cannot be had.
* `Files.Glob.expand` — the paths of a pattern.
-/

namespace JsonStencil.Files

/-- A directory whose names cannot be had. -/
structure Unlisted where
  path : String
  failure : Failure
deriving DecidableEq, Repr

/-- The wording of the failure. -/
def Unlisted.message (u : Unlisted) : String :=
  s!"attempting to read `{u.path}` resulted in an error: " ++ u.failure.message

/-- Whether a path is one of the spellings of the directory that relative
paths start from. -/
def isHere (path : String) : Bool :=
  match Text.split '/' path with
  | "." :: rest => rest.all fun name => name = "" ∨ name = "."
  | _ => false

/-- The path of a name in a directory. -/
def within (path name : String) : String := if isHere path then name else join path name

variable {m : Type → Type} [Monad m]

/-- Whether a name that was looked up is there. -/
def Access.isThere (files : Access m) (path name : String) : m Bool := do
  if name = "." ∨ name = ".." then files.isDirectory path
  else return (← files.kind? (within path name)).isSome

/-- The names in a directory. -/
def Access.list (files : Access m) (path : String) : ExceptT Unlisted m (List String) := do
  match ← files.names path with
  | .ok names => return names
  | .error failure => throw ⟨path, failure⟩

namespace Glob

variable (files : Access m)

/-- The paths that some patterns lead to from a path. The first argument
bounds the number of directories on the way. -/
def below : (fuel : Nat) → List Pattern → String → ExceptT Unlisted m (List String)
  | _, [], path => return [path]
  | 0, _ :: _, _ => return []
  | fuel + 1, pattern :: rest, path => do
    match pattern.literal? with
    -- a name without wildcards is looked up, and the directory is not listed
    | some chars =>
      let name := String.ofList chars
      if ← files.isThere path name then below fuel rest (within path name) else return []
    | none =>
      if !(← files.isDirectory path) then return []
      let names ← files.list path
      let special ← pattern.points.flatMapM fun name => below fuel rest (join path name)
      -- several `**` in a row are one
      let behind := rest.dropWhile Pattern.isRecursive
      let found ← names.flatMapM fun name => do
        let child := within path name
        if !pattern.isRecursive then
          if pattern.admits name.toList then below fuel rest child else return []
        else
          -- `**` stands for this name and for all that it leads to
          let inner ←
            if ← files.isDirectory child then below fuel (pattern :: behind) child else pure []
          match behind with
          | [] => return if ← files.isDirectory child then child :: inner else []
          | next :: others =>
            let own ← if next.admits name.toList then below fuel others child else pure []
            return own ++ inner
      return special ++ found

/-- The most directories on the way along a path, by its greatest length. -/
def maxDepth : Nat := 4096

/-- The paths of a pattern, in the order in which they are found. -/
def expand (g : Glob) : ExceptT Unlisted m (List String) := do
  let found ← below files (g.names.length + maxDepth) g.names (if g.absolute then "/" else ".")
  if g.directoriesOnly then found.filterM fun path => files.isDirectory path
  else return found

end Glob

end JsonStencil.Files
