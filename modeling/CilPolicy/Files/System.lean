import CilPolicy.Files.Path
import CilPolicy.Kernel.Bytes

/-!
What the compiler asks of a file system.
-/

namespace CilPolicy

/-- What a path leads to. -/
inductive EntryKind where
  | file
  | directory
deriving DecidableEq, Repr

/-- Operations on files by their paths. -/
class FileSystem (m : Type → Type) where
  /-- What stands there, if anything does. -/
  kind? : String → m (Option EntryKind)
  read : String → m (Except FileFault Bytes)
  /-- Makes one directory. -/
  makeDirectory : String → m (Except FileFault Unit)
  /-- Puts a finished file in place of whatever file was there. -/
  replace : String → Bytes → m (Except FileFault Unit)

namespace FileSystem

variable {m : Type → Type} [Monad m] [FileSystem m]

def isDirectory (path : String) : m Bool := do
  return (← kind? path) == some .directory

def isFile (path : String) : m Bool := do
  return (← kind? path) == some .file

/-- Makes a directory; one that is there already will do. -/
def ensureDirectory (path : String) : m (Except FileFault Unit) := do
  match ← makeDirectory path with
  | .ok () => return .ok ()
  | .error fault => return if ← isDirectory path then .ok () else .error fault

/-- Makes a directory with all above it; the first argument bounds their number. -/
def makeDirectories : Nat → String → m (Except FileFault Unit)
  | 0, _ => return .error .missing
  | n + 1, path => do
    if path.isEmpty then return .ok ()
    match ← ensureDirectory path with
    | .error .missing =>
      match Path.parent? path with
      | none => return .error .missing
      | some above =>
        match ← makeDirectories n above with
        | .error fault => return .error fault
        | .ok () => ensureDirectory path
    | outcome => return outcome

end FileSystem

end CilPolicy
