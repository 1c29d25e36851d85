import JsonStencil.Text.Split

/-!
# Access to files

What the command line asks of a file system, as a record of operations over
any monad: a program passes those of its machine, and a file system held in
memory passes its own. Names in a path are separated by slashes, and an
operation that fails says why.

Main definitions:

* `Files.Failure` / `Files.Failure.message` — why an operation failed, and
  its wording.
* `Files.Access` — the operations.
* `Files.Access.makeParents` — the directories above a path.
-/

namespace JsonStencil.Files

/-- Why an operation on files failed. -/
inductive Failure where
  | notFound
  | alreadyExists
  | notDirectory
  | isDirectory
  | nameTooLong
  /-- The bytes of a text are no UTF-8. -/
  | notText
  /-- Any other failure, with the wording and number of its machine. -/
  | other (reason : String) (code : Nat)
deriving DecidableEq, Repr

/-- The wording of a failure. -/
def Failure.message : Failure → String
  | .notFound => "No such file or directory (os error 2)"
  | .alreadyExists => "File exists (os error 17)"
  | .notDirectory => "Not a directory (os error 20)"
  | .isDirectory => "Is a directory (os error 21)"
  | .nameTooLong => "File name too long (os error 36)"
  | .notText => "stream did not contain valid UTF-8"
  | .other reason code => s!"{reason} (os error {code})"

/-- The failure that a machine knows under a number. -/
def Failure.ofCode (reason : String) : Nat → Failure
  | 2 => .notFound
  | 17 => .alreadyExists
  | 20 => .notDirectory
  | 21 => .isDirectory
  | 36 => .nameTooLong
  | code => .other reason code

/-- Names in ascending order. -/
def ascending (names : List String) : List String :=
  names.mergeSort fun a b => decide (a ≤ b)

/-- What stands under a name. -/
inductive Kind where
  | file
  | directory
deriving DecidableEq, Repr

/-- The operations on files, each on the text of a path. -/
structure Access (m : Type → Type) where
  /-- The bytes of a file. -/
  read : String → m (Except Failure (List UInt8))
  /-- What stands under a path, if anything does. -/
  kind? : String → m (Option Kind)
  /-- The names in a directory, in ascending order. -/
  names : String → m (Except Failure (List String))
  /-- Makes one directory inside another that exists. -/
  makeDirectory : String → m (Except Failure Unit)
  /-- Makes a text the content of a file, which need not exist. -/
  write : String → String → m (Except Failure Unit)

/-! ## Paths -/

/-- Whether a piece between slashes leads anywhere. Nothing at all and a
single point do not. -/
def isStep (piece : String) : Bool := piece ≠ "" ∧ piece ≠ "."

/-- The paths along some pieces behind a start, each as far as a piece that
leads somewhere and spelled as it was. -/
def pathsAlong (start : String) : List String → List String
  | [] => []
  | piece :: rest =>
    let path := start ++ piece
    let further := pathsAlong (path ++ "/") rest
    if isStep piece then path :: further else further

/-- The directories above what a path leads to, innermost first. -/
def directoriesAbove (path : String) : List String :=
  (pathsAlong "" (Text.split '/' path)).dropLast.reverse

/-- A name below a path. -/
def join (path name : String) : String :=
  if path.endsWith "/" then path ++ name else path ++ "/" ++ name

namespace Access

variable {m : Type → Type} [Monad m] (files : Access m)

/-- Whether a directory stands under a path. -/
def isDirectory (path : String) : m Bool := do
  return (← files.kind? path) == some .directory

/-- Makes a directory unless it is there already. -/
def ensureDirectory (path : String) : m (Except Failure Unit) := do
  match ← files.makeDirectory path with
  | .ok () => return .ok ()
  | .error e => return if ← files.isDirectory path then .ok () else .error e

/-- Makes directories that lie inside each other, innermost first. The
innermost one is tried before those above it, and these are made only if
that failed for want of them. -/
def makeDirectories : List String → m (Except Failure Unit)
  | [] => return .ok ()
  | path :: above => do
    match ← files.ensureDirectory path with
    -- the directory above is missing as well
    | .error .notFound =>
      match ← makeDirectories above with
      | .error e => return .error e
      | .ok () => files.ensureDirectory path
    | other => return other

/-- Makes the directories above a path as far as they are missing. -/
def makeParents (path : String) : m (Except Failure Unit) :=
  files.makeDirectories (directoriesAbove path)

end Access

end JsonStencil.Files
