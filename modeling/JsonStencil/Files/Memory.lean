import JsonStencil.Fields
import JsonStencil.Files.Access
import JsonStencil.Text.Utf8

/-!
# File systems in memory

A file system is a tree of directories and files together with the directory
that relative paths start from. Every name along a path must stand in a
directory; two points lead back to the directory above, and the root is its
own.

Main definitions:

* `FileTree` — directories and files.
* `FileSystem` — a tree and a working directory.
* `FileSystem.access` — the operations on it.
-/

namespace JsonStencil

/-- A file, or a directory with its entries by name. -/
inductive FileTree where
  | file (content : List UInt8)
  | directory (entries : List (String × FileTree))
deriving Repr

namespace FileTree

instance : Inhabited FileTree := ⟨.directory []⟩

/-- The entries of a directory; a file has none. -/
def entries : FileTree → List (String × FileTree)
  | .file _ => []
  | .directory entries => entries

/-- What stands at the end of some names. -/
def at? : FileTree → List String → Option FileTree
  | node, [] => some node
  | node, name :: rest => (node.entries.lookup name).bind (at? · rest)

/-- Puts a node at the end of some names. Directories on the way that are
missing are made, and a file on the way gives way to one. -/
def put (node : FileTree) : List String → FileTree → FileTree
  | [], _ => node
  | name :: rest, tree =>
    let below := (tree.entries.lookup name).getD (.directory [])
    .directory (Fields.put name (put node rest below) tree.entries)

mutual

/-- The files of a tree, each under its path, in the order of the entries. -/
def files (path : String) : FileTree → List (String × List UInt8)
  | .file content => [(path, content)]
  | .directory entries => filesAmong (if path.isEmpty then "" else path ++ "/") entries

/-- The files of some entries, whose paths all start alike. -/
def filesAmong (start : String) : List (String × FileTree) → List (String × List UInt8)
  | [] => []
  | (name, node) :: rest => files (start ++ name) node ++ filesAmong start rest

end

end FileTree

/-- A tree, and the names that lead from its root to the directory that
relative paths start from. -/
structure FileSystem where
  root : FileTree
  here : List String
deriving Repr, Inhabited

namespace FileSystem

open Files (Failure)

/-- The most bytes of a name. -/
def maxName : Nat := 255

/-- The most bytes of a path. -/
def maxPath : Nat := 4095

/-- Whether a directory stands at the end of some names. -/
def isDirectoryAt (fs : FileSystem) (place : List String) : Bool :=
  match fs.root.at? place with
  | some (.directory _) => true
  | _ => false

/-- The place that one name leads to from another place. -/
def step (fs : FileSystem) (place : List String) (name : String) :
    Except Failure (List String) :=
  if !fs.isDirectoryAt place then .error .notDirectory
  else if name = "" ∨ name = "." then .ok place
  else if name = ".." then .ok place.dropLast
  else if maxName < name.utf8ByteSize then .error .nameTooLong
  else if (fs.root.at? (place ++ [name])).isSome then .ok (place ++ [name])
  else .error .notFound

/-- The place where a path starts, and the names along it. -/
def route (fs : FileSystem) (path : String) : List String × List String :=
  match Text.split '/' path with
  | "" :: names => ([], names)
  | names => (fs.here, names)

/-- The place that some names lead to. -/
def walk (fs : FileSystem) (place names : List String) : Except Failure (List String) :=
  names.foldlM fs.step place

/-- The place of a path. -/
def locate (fs : FileSystem) (path : String) : Except Failure (List String) :=
  if path.isEmpty then .error .notFound
  else if maxPath < path.utf8ByteSize then .error .nameTooLong
  else fs.walk (fs.route path).1 (fs.route path).2

/-- The node of a path. -/
def node (fs : FileSystem) (path : String) : Except Failure FileTree := do
  match fs.root.at? (← fs.locate path) with
  | some node => .ok node
  | none => .error .notFound

/-- The bytes of a file. -/
def read (fs : FileSystem) (path : String) : Except Failure (List UInt8) := do
  match ← fs.node path with
  | .file content => .ok content
  | .directory _ => .error .isDirectory

/-- What stands under a path. -/
def kind? (fs : FileSystem) (path : String) : Option Files.Kind :=
  match fs.node path with
  | .ok (.file _) => some .file
  | .ok (.directory _) => some .directory
  | .error _ => none

/-- The names in a directory, in ascending order. -/
def names (fs : FileSystem) (path : String) : Except Failure (List String) := do
  match ← fs.node path with
  | .file _ => .error .notDirectory
  | .directory entries => .ok (Files.ascending (entries.map Prod.fst))

/-- The place of the directory that the last name of a path belongs to, that
name, and whether slashes follow it. -/
def locateLast (fs : FileSystem) (path : String) : Except Failure (List String × String × Bool) :=
  if path.isEmpty then .error .notFound
  else if maxPath < path.utf8ByteSize then .error .nameTooLong
  else do
    let (start, names) := fs.route path
    -- slashes at the end name nothing
    let kept := (names.reverse.dropWhile String.isEmpty).reverse
    let place ← fs.walk start kept.dropLast
    let last := kept.getLast?.getD "."
    if fs.isDirectoryAt place then .ok (place, last, kept.length < names.length)
    else .error .notDirectory

/-- Whether a name stands for a directory that exists anyway. -/
def isPoints (name : String) : Bool := name == "." || name == ".."

/-- Puts a node under a name inside the directory at a place. -/
def putAt (fs : FileSystem) (place : List String) (name : String) (node : FileTree) :
    FileSystem :=
  { fs with root := FileTree.put node (place ++ [name]) fs.root }

/-- Makes one directory inside another that exists. -/
def makeDirectory (fs : FileSystem) (path : String) : Except Failure FileSystem := do
  let (place, last, _) ← fs.locateLast path
  if isPoints last ∨ (fs.root.at? (place ++ [last])).isSome then .error .alreadyExists
  else if maxName < last.utf8ByteSize then .error .nameTooLong
  else .ok (fs.putAt place last (.directory []))

/-- Makes some bytes the content of a file. -/
def write (fs : FileSystem) (path : String) (content : List UInt8) :
    Except Failure FileSystem := do
  let (place, last, slashed) ← fs.locateLast path
  if slashed ∨ isPoints last ∨ fs.isDirectoryAt (place ++ [last]) then .error .isDirectory
  else if maxName < last.utf8ByteSize then .error .nameTooLong
  else .ok (fs.putAt place last (.file content))

/-- Runs an operation that changes the file system; one that fails leaves it
alone. -/
def changing (operation : FileSystem → Except Failure FileSystem) :
    StateM FileSystem (Except Failure Unit) := fun fs =>
  match operation fs with
  | .ok changed => (.ok (), changed)
  | .error e => (.error e, fs)

/-- The operations on a file system in memory. -/
def access : Files.Access (StateM FileSystem) where
  read path := return (← get).read path
  kind? path := return (← get).kind? path
  names path := return (← get).names path
  makeDirectory path := changing (·.makeDirectory path)
  write path text := changing (·.write path (Text.bytes text))

/-- The files below the working directory, each under its path from there. -/
def files (fs : FileSystem) : List (String × List UInt8) :=
  ((fs.root.at? fs.here).getD (.directory [])).files ""

end FileSystem

end JsonStencil
