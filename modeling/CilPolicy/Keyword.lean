/-!
The small enumerations a policy source spells as keywords, with the numbers and
flags they become in the outputs.
-/

namespace CilPolicy

/-- Transport protocol of a port context. -/
inductive PortProtocol where
  | tcp
  | udp
  | dccp
  | sctp
deriving DecidableEq, Repr

namespace PortProtocol

/-- The IP protocol number. -/
def number : PortProtocol → Nat
  | tcp => 6
  | udp => 17
  | dccp => 33
  | sctp => 132

def ofKeyword? : String → Option PortProtocol
  | "tcp" => some tcp
  | "udp" => some udp
  | "dccp" => some dccp
  | "sctp" => some sctp
  | _ => none

end PortProtocol

/-- How files of a filesystem get their labels. -/
inductive FilesystemUse where
  | xattr
  | trans
  | task
deriving DecidableEq, Repr

namespace FilesystemUse

def number : FilesystemUse → Nat
  | xattr => 1
  | trans => 2
  | task => 3

def ofKeyword? : String → Option FilesystemUse
  | "xattr" => some xattr
  | "trans" => some trans
  | "task" => some task
  | _ => none

end FilesystemUse

/-- The kind of file a file context speaks of. -/
inductive FileKind where
  | file
  | dir
  | char
  | block
  | socket
  | pipe
  | symlink
  | any
deriving DecidableEq, Repr

namespace FileKind

def ofKeyword? : String → Option FileKind
  | "file" => some file
  | "dir" => some dir
  | "char" => some char
  | "block" => some block
  | "socket" => some socket
  | "pipe" => some pipe
  | "symlink" => some symlink
  | "any" => some any
  | _ => none

/-- Mode flag of a `file_contexts` line, empty for every kind of file. -/
def flag : FileKind → String
  | file => "--"
  | dir => "-d"
  | char => "-c"
  | block => "-b"
  | socket => "-s"
  | pipe => "-p"
  | symlink => "-l"
  | any => ""

/-- Place among the kinds when two file contexts are ordered. -/
def rank : FileKind → Nat
  | any => 0
  | file => 1
  | dir => 2
  | char => 3
  | block => 4
  | socket => 5
  | pipe => 6
  | symlink => 7

end FileKind

/-- The side a new object takes its user, role or type from. -/
inductive DefaultObject where
  | source
  | target
deriving DecidableEq, Repr

namespace DefaultObject

def number : DefaultObject → Nat
  | source => 1
  | target => 2

def ofKeyword? : String → Option DefaultObject
  | "source" => some source
  | "target" => some target
  | _ => none

end DefaultObject

/-- The levels a new object takes its range from. -/
inductive DefaultRange where
  | sourceLow
  | sourceHigh
  | sourceLowHigh
  | targetLow
  | targetHigh
  | targetLowHigh
  | glblub
deriving DecidableEq, Repr

namespace DefaultRange

def number : DefaultRange → Nat
  | sourceLow => 1
  | sourceHigh => 2
  | sourceLowHigh => 3
  | targetLow => 4
  | targetHigh => 5
  | targetLowHigh => 6
  | glblub => 7

/-- Reads the side and, except for `glblub`, the levels. -/
def ofKeywords? (object : String) (levels : Option String) : Option DefaultRange :=
  match object, levels with
  | "source", some "low" => some sourceLow
  | "source", some "high" => some sourceHigh
  | "source", some "low-high" => some sourceLowHigh
  | "target", some "low" => some targetLow
  | "target", some "high" => some targetHigh
  | "target", some "low-high" => some targetLowHigh
  | "glblub", none => some glblub
  | _, _ => none

end DefaultRange

end CilPolicy
