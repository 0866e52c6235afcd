import CilPolicy.Files.System

/-!
A file system held in memory: the entries by their places, and the directory that relative
paths start from. A place is the list of names from the innermost to the root.
-/

namespace CilPolicy

/-- Where an entry stands, innermost name first. -/
abbrev Place := List String

/-- Directories and files. A directory has no bytes. -/
structure FileTree where
  working : Place := []
  entries : List (Place × Option Bytes) := []
deriving Inhabited

namespace FileTree

/-- What stands at a place: the root is a directory always. -/
def kindAt? (t : FileTree) (place : Place) : Option EntryKind :=
  if place.isEmpty then some .directory
  else (t.entries.lookup place).map fun
    | some _ => .file
    | none => .directory

/-- The place can hold entries. -/
def enter (t : FileTree) (place : Place) : Except FileFault Unit :=
  match t.kindAt? place with
  | some .directory => .ok ()
  | some .file => .error .notDirectory
  | none => .error .missing

/-- Follows names from a place; each must be followed from a directory. -/
def walk (t : FileTree) : Place → List String → Except FileFault Place
  | here, [] => .ok here
  | here, name :: rest => do
    t.enter here
    if name = "" ∨ name = "." then t.walk here rest
    else if name = ".." then t.walk here.tail rest
    else t.walk (name :: here) rest

/-- Where a path starts. -/
def start (t : FileTree) (path : String) : Place :=
  if Path.isAbsolute path then [] else t.working

/-- The place a path leads to, whether or not something stands there. -/
def locate (t : FileTree) (path : String) : Except FileFault Place :=
  if path.isEmpty then .error .missing else t.walk (t.start path) (Path.parts path)

/-- The directory that holds the last name of a path, that name, and whether a slash
follows it. The name is empty when the path is a root. -/
def split (t : FileTree) (path : String) : Except FileFault (Place × String × Bool) := do
  if path.isEmpty then throw .missing
  let parts := (Path.parts path).reverse
  let names := parts.dropWhile (· == "")
  let place ← t.walk (t.start path) names.tail.reverse
  t.enter place
  return (place, names.head?.getD "", parts.length ≠ names.length)

def set (t : FileTree) (place : Place) (entry : Option Bytes) : FileTree :=
  { t with entries := (place, entry) :: t.entries.filter (·.1 ≠ place) }

def read (t : FileTree) (path : String) : Except FileFault Bytes := do
  let place ← t.locate path
  match t.kindAt? place, t.entries.lookup place with
  | some .directory, _ => throw .isDirectory
  | _, some (some bytes) => return bytes
  | _, _ => throw .missing

def makeDirectory (t : FileTree) (path : String) : Except FileFault FileTree := do
  let (place, name, _) ← t.split path
  if name = "" ∨ name = "." ∨ name = ".." ∨ (t.kindAt? (name :: place)).isSome then throw .occupied
  return t.set (name :: place) none

def replace (t : FileTree) (path : String) (bytes : Bytes) : Except FileFault FileTree := do
  let (place, name, slash) ← t.split path
  if name = "" ∨ name = "." ∨ name = ".." then throw .busy
  if slash then throw .notDirectory
  if t.kindAt? (name :: place) = some .directory then throw .isDirectory
  return t.set (name :: place) (some bytes)

/-- Keeps the tree when a change fails. -/
def change (f : FileTree → Except FileFault FileTree) : StateM FileTree (Except FileFault Unit) :=
  fun t => match f t with
    | .ok t => (.ok (), t)
    | .error fault => (.error fault, t)

instance : FileSystem (StateM FileTree) where
  kind? path := do
    let t ← get
    return ((t.locate path).toOption.bind t.kindAt?)
  read path := do return (← get).read path
  makeDirectory path := change (·.makeDirectory path)
  replace path bytes := change (·.replace path bytes)

/-- A place and all above it, without the root. -/
def upward : Place → List Place
  | [] => []
  | name :: above => (name :: above) :: upward above

/-- An empty working directory with the directories above it. -/
def workingIn (path : String) : FileTree :=
  let names := ((Path.parts path).filter (· != "")).reverse
  { working := names, entries := (upward names).map fun place => (place, none) }

/-- Adds a file, with the directories above it. -/
def add (t : FileTree) (path : String) (bytes : Bytes) : FileTree :=
  let write : StateM FileTree Unit := do
    if let some above := Path.parent? path then
      let _ ← FileSystem.makeDirectories (path.length + 1) above
    let _ ← FileSystem.replace path bytes
  (write.run t).2

end FileTree

end CilPolicy
