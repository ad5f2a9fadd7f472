/-
# A tree of files

A `FileTree` says for each place whether a file is there, with its content, or a folder, or nothing.
A place is reached by a path, name by name: from the root if the path starts with a slash, else
from the folder `here`.  Each name is looked up in a folder, so a path through a file or through
nothing is an error.  A name of one point, or of no characters, stands for the folder itself, and a
name of two points for the folder above it.

Reading follows the whole path.  Writing follows it up to its last name, which need not be there
yet; a path that ends with a slash or with points can only lead to a folder, and nothing is written.

There are no links and no rights.
-/
import ClassFile.CommandLine.Files

namespace ClassFile.CommandLine

/-! ## 1. Places -/

/-- A place, given by the names that lead to it from the root, the last one first. -/
abbrev Place := List String

/-- What can be at a place. -/
inductive Entry where
  | file (content : Bytes)
  | folder

/-- Files and folders by their places.  The root is always a folder. -/
structure FileTree where
  /-- Where a path starts that does not start with a slash. -/
  here : Place
  entries : List (Place × Entry)

namespace FileTree

/-- What is at a place. -/
def entry? (tree : FileTree) : Place → Option Entry
  | [] => some .folder
  | place => tree.entries.lookup place

/-- The tree with something at a place. -/
def insert (tree : FileTree) (place : Place) (e : Entry) : FileTree :=
  { tree with entries := (place, e) :: tree.entries.filter fun entry => entry.1 ≠ place }

/-- The names and contents of the files in a folder. -/
def filesIn (tree : FileTree) (folder : Place) : List (String × Bytes) :=
  tree.entries.filterMap fun
    | (name :: above, .file content) => if above = folder then some (name, content) else none
    | _ => none

/-! ## 2. Paths -/

/-- The bytes that a name can have at most. -/
def maxNameSize : Nat := 255

/-- The bytes that a path can have at most. -/
def maxPathSize : Nat := 4095

/-- Does a name stand for a folder that is reached without a look-up? -/
def isPoints (name : String) : Bool := name = "." || name = ".."

/-- Makes sure that a place is a folder. -/
def checkFolder (tree : FileTree) (place : Place) : Except FileError Unit :=
  match tree.entry? place with
  | some .folder => .ok ()
  | some (.file _) => .error .notADirectory
  | none => .error .notFound

/-- Where a name leads to from a folder.  Above the root is the root itself. -/
def step (tree : FileTree) (folder : Place) (name : String) : Except FileError Place := do
  tree.checkFolder folder
  if name = "" || name = "." then return folder
  if name = ".." then return folder.tail
  if maxNameSize < name.utf8ByteSize then throw .nameTooLong
  return name :: folder

/-- Where the names lead to, one after the other. -/
def walk (tree : FileTree) (start : Place) (names : List String) : Except FileError Place :=
  names.foldlM tree.step start

/-- The start of a path and its names. -/
def namesOf (tree : FileTree) (path : String) : Except FileError (Place × List String) :=
  if path.isEmpty then .error .notFound
  else if maxPathSize < path.utf8ByteSize then .error .nameTooLong
  else .ok (if path.startsWith "/" then [] else tree.here, path.splitOn "/")

/-! ## 3. Reading and writing -/

/-- The content of the file at a path. -/
def read (path : String) (tree : FileTree) : Except FileError Bytes := do
  let (start, names) ← tree.namesOf path
  match tree.entry? (← tree.walk start names) with
  | some (.file content) => return content
  | some .folder => throw .isADirectory
  | none => throw .notFound

/-- The tree with a file of some content at a path. -/
def write (path : String) (content : Bytes) (tree : FileTree) : Except FileError FileTree := do
  let (start, names) ← tree.namesOf path
  let endsWithSlash := names.getLast? = some ""
  match names.reverse.dropWhile (· = "") with
  | [] => throw .isADirectory
  | last :: above =>
    let folder ← tree.walk start above.reverse
    tree.checkFolder folder
    if endsWithSlash || isPoints last then throw .isADirectory
    let place ← tree.step folder last
    match tree.entry? place with
    | some .folder => throw .isADirectory
    | _ => return tree.insert place (.file content)

/-- The files of a tree. -/
def files : Files (StateM FileTree) where
  read path := do return (← get).read path
  write path content := do
    match (← get).write path content with
    | .ok tree => set tree; return .ok ()
    | .error e => return .error e

end FileTree

end ClassFile.CommandLine
