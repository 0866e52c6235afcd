/-!
Global settings of a policy: what the kernel does with classes it does not know,
and the capabilities a policy declares.
-/

namespace CilPolicy

/-- How the kernel treats classes and permissions missing from the policy. -/
inductive HandleUnknown where
  | deny
  | reject
  | allow
deriving DecidableEq, Repr, Inhabited

namespace HandleUnknown

def name : HandleUnknown → String
  | deny => "deny"
  | reject => "reject"
  | allow => "allow"

def ofName? : String → Option HandleUnknown
  | "deny" => some deny
  | "reject" => some reject
  | "allow" => some allow
  | _ => none

/-- What is said of a word that names no treatment. -/
def unknownName (word : String) : String :=
  s!"unknown handleunknown value '{word}'"

/-- The bits of the header's config word. -/
def configBits : HandleUnknown → Nat
  | deny => 0
  | reject => 2
  | allow => 4

/-- The treatment a config word asks for. -/
def ofConfigBits (config : Nat) : HandleUnknown :=
  match config &&& 6 with
  | 2 => reject
  | 4 => allow
  | _ => deny

end HandleUnknown

/-- Bit of the config word that marks a multi-level policy. -/
def mlsConfigBit : Nat := 1

/-- A capability the kernel knows, by its bit number. -/
structure Capability where
  number : Fin 8
deriving DecidableEq, Repr

namespace Capability

def names : List String :=
  ["network_peer_controls", "open_perms", "extended_socket_class", "always_check_network",
    "cgroup_seclabel", "nnp_nosuid_transition", "genfs_seclabel_symlinks", "ioctl_skip_cloexec"]

def name (c : Capability) : String :=
  names.getD c.number ""

def ofNumber? (n : Nat) : Option Capability :=
  if h : n < 8 then some ⟨⟨n, h⟩⟩ else none

/-- Finds a capability by name; the case of ASCII letters does not matter. -/
def ofName? (word : String) : Option Capability :=
  (names.findIdx? (· == word.toLower)).bind ofNumber?

end Capability

end CilPolicy
