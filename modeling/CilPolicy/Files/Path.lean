/-!
Paths as text, and why a file cannot be read or written. Parts of a path are divided by
slashes; a part that is empty or a single dot, except one dot in front, says nothing.
-/

namespace CilPolicy

/-- A refusal of the file system, told in the words of the operating system. -/
inductive FileFault where
  | missing
  | busy
  | occupied
  | notDirectory
  | isDirectory
  /-- The bytes are not UTF-8. -/
  | notText
  /-- Any other refusal, as the system tells it. -/
  | system (reason : String)
deriving DecidableEq, Repr

def FileFault.message : FileFault → String
  | missing => "No such file or directory (os error 2)"
  | busy => "Device or resource busy (os error 16)"
  | occupied => "File exists (os error 17)"
  | notDirectory => "Not a directory (os error 20)"
  | isDirectory => "Is a directory (os error 21)"
  | notText => "stream did not contain valid UTF-8"
  | system reason => reason

namespace Path

def isAbsolute (path : String) : Bool :=
  path.toList.head? == some '/'

/-- A path as seen from a directory. An absolute one stays as it is. -/
def join (base path : String) : String :=
  if isAbsolute path || base.isEmpty then path
  else if base.toList.getLast? == some '/' then base ++ path
  else base ++ "/" ++ path

/-- Leaves out closing slashes and dots that say nothing; the characters come last first. -/
def trim : List Char → List Char
  | ['/'] => ['/']
  | '/' :: rest => trim rest
  | '.' :: '/' :: rest => trim ('/' :: rest)
  | chars => chars

/-- The path without its last part. The root and the empty path have none. -/
def parent? (path : String) : Option String :=
  match trim path.toList.reverse with
  | [] | ['/'] => none
  | chars => some (String.ofList (trim (chars.dropWhile (· != '/'))).reverse)

/-- The parts between the slashes, empty ones included. -/
def parts (path : String) : List String :=
  path.splitOn "/"

end Path

end CilPolicy
