/-!
Targets, symbol tables and format versions of a kernel policy.
A feature names the least version that carries it; everything the encoder gates
on a version goes through `FormatVersion.supports`.
-/

namespace CilPolicy

/-- The kernel a policy is built for. -/
inductive Target where
  | selinux
  | xen
deriving DecidableEq, Repr, Inhabited

namespace Target

def name : Target → String
  | selinux => "selinux"
  | xen => "xen"

def ofName? : String → Option Target
  | "selinux" => some selinux
  | "xen" => some xen
  | _ => none

/-- What is said of a word that names no target. -/
def unknownName (word : String) : String :=
  s!"unknown target platform '{word}'"

/-- The identification string after the magic number of a policy file. -/
def signature : Target → String
  | selinux => "SE Linux"
  | xen => "XenFlask"

def ofSignature? : String → Option Target
  | "SE Linux" => some selinux
  | "XenFlask" => some xen
  | _ => none

end Target

/-- The eight symbol tables of a kernel policy. -/
inductive SymbolKind where
  | commons
  | classes
  | roles
  | types
  | users
  | booleans
  | sensitivities
  | categories
deriving DecidableEq, Repr

namespace SymbolKind

/-- Every table, in the order in which a policy file holds them. -/
def all : List SymbolKind :=
  [commons, classes, roles, types, users, booleans, sensitivities, categories]

/-- Position of the table in a policy file. -/
def index : SymbolKind → Nat
  | commons => 0
  | classes => 1
  | roles => 2
  | types => 3
  | users => 4
  | booleans => 5
  | sensitivities => 6
  | categories => 7

/-- Number of buckets of the name table. It fixes the order of the symbols in a file. -/
def bucketCount : SymbolKind → Nat
  | commons => 2
  | classes => 32
  | types => 512
  | users => 128
  | roles | booleans | sensitivities | categories => 16

end SymbolKind

/-- What a policy format may carry, depending on its version. -/
inductive Feature where
  | taggedRecords
  | rangeTransitionClass
  | capabilities
  | permissive
  | bounds
  | filenameTransitions
  | roleTransitionClass
  | objectDefaults
  | defaultType
  | extendedPermissions
  | wideMemory
  | infiniband
  | glblub
  | compactFilenameTransitions
deriving DecidableEq, Repr

/-- The least version that carries the feature. -/
def Feature.since : Feature → Nat
  | taggedRecords => 20
  | rangeTransitionClass => 21
  | capabilities => 22
  | permissive => 23
  | bounds => 24
  | filenameTransitions => 25
  | roleTransitionClass => 26
  | objectDefaults => 27
  | defaultType => 28
  | extendedPermissions => 30
  | wideMemory => 30
  | infiniband => 31
  | glblub => 32
  | compactFilenameTransitions => 33

/-- A version of the kernel policy format. -/
structure FormatVersion where
  number : Nat
deriving DecidableEq, Repr

namespace FormatVersion

/-- The least version the encoder writes. -/
def oldest : Nat := 24

/-- The greatest version known. -/
def newest : Nat := 33

def latest : FormatVersion := ⟨newest⟩

instance : Inhabited FormatVersion := ⟨latest⟩

/-- The encoder can produce this version. -/
def writable (v : FormatVersion) : Bool :=
  oldest ≤ v.number && v.number ≤ newest

def supports (v : FormatVersion) (f : Feature) : Bool :=
  f.since ≤ v.number

/-- Number of object-context lists a file holds for the target. -/
def objectListCount (v : FormatVersion) : Target → Nat
  | .selinux => if v.supports .infiniband then 9 else 7
  | .xen => if v.supports .wideMemory then 6 else 5

end FormatVersion

end CilPolicy
