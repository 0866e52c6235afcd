import CilPolicy.Text.Quoted
import CilPolicy.Version

/-!
Why a kernel policy cannot be built, written or read. Each cause is a
constructor; `KernelError.message` holds all the wording.
-/

namespace CilPolicy

/-- Why bytes are not a bit set. -/
inductive BitSetFault where
  | mapSize (found : Nat)
  | highBitUnaligned (high : Nat)
  | noChunks
  | startUnaligned (start : Nat)
  | startBeyond (start high : Nat)
  | nullWord (start : Nat)
  | outOfOrder (start previous : Nat)
  | highBitMismatch (high last : Nat)
deriving DecidableEq, Repr

def BitSetFault.message : BitSetFault → String
  | mapSize found => s!"map size {found} does not match expected 64"
  | highBitUnaligned high => s!"high bit {high} is not a multiple of the map size"
  | noChunks => "high bit set but no chunks present"
  | startUnaligned start => s!"start bit {start} is not a multiple of the map size"
  | startBeyond start high => s!"start bit {start} beyond high bit {high}"
  | nullWord start => s!"null map at start bit {start}"
  | outOfOrder start previous => s!"start bit {start} out of order after {previous}"
  | highBitMismatch high last => s!"high bit {high} does not match last chunk at {last}"

/-- The part of an access key that a record of words gives. -/
inductive KeyPart where
  | source
  | target
  | cls
deriving DecidableEq, Repr

def KeyPart.name : KeyPart → String
  | source => "source type"
  | target => "target type"
  | cls => "target class"

/-- Why bytes are not an access table. -/
inductive AccessFault where
  | emptyTable
  | duplicate
  | itemCount (found : Nat)
  | truncated (part : KeyPart) (value : Nat)
  | nullEntry
  | mixedKinds
  | shortRecord (count : Nat)
  | longRecord (items count : Nat)
  | kindCount
  | noExtended (version : Nat)
  | missingPermissions
deriving DecidableEq, Repr

def AccessFault.message : AccessFault → String
  | emptyTable => "table is empty"
  | duplicate => "duplicate entry"
  | itemCount found => s!"invalid item count {found}"
  | truncated part value => s!"truncated {part.name} {value}"
  | nullEntry => "null entry"
  | mixedKinds => "entry has both access vectors and types"
  | shortRecord count => s!"entry only had {count} items"
  | longRecord items count => s!"entry only had {items} items, expected {count}"
  | kindCount => "more than one specifier"
  | noExtended version =>
    s!"policy version {version} does not support extended permissions rules and one was specified"
  | missingPermissions => "extended permission entry without a permission set"

/-- Why bytes are not a policy header. -/
inductive HeaderFault where
  | magic (found : Nat)
  | targetLength (found : Nat)
  | unknownTarget (signature : String)
deriving DecidableEq, Repr

/-- The number every policy file begins with. -/
def policyMagic : Nat := 0xf97cff8c

def HeaderFault.message : HeaderFault → String
  | magic found => "magic number " ++ Text.hex found ++ " does not match " ++ Text.hex policyMagic
  | targetLength found => s!"target string length {found} out of range"
  | unknownTarget signature => "unknown target string " ++ Text.quote signature

/-- What a version lacks. -/
inductive VersionFault where
  | notWritable
  | recordsReadOnly
  | extendedRules
  | objectNames
  | wideAddress (address : Nat)
deriving DecidableEq, Repr

def VersionFault.message : VersionFault → String
  | notWritable => s!"writable versions are {FormatVersion.oldest} to {FormatVersion.newest}"
  | recordsReadOnly => "legacy avtab records are read-only"
  | extendedRules => "extended permission rules need version 30"
  | objectNames => "typetransition with an object name needs version 25"
  | wideAddress address =>
    "iomem address " ++ Text.hex address ++ " needs a 64-bit capable version"

/-- Why a kernel policy, or a part of one, is refused. -/
inductive KernelError where
  | alreadyExists
  | notFound
  | unexpectedEnd (needed remaining : Nat)
  | bitSet (fault : BitSetFault)
  | access (fault : AccessFault)
  | header (fault : HeaderFault)
  | version (number : Nat) (fault : VersionFault)
  | transitionConflict (source existing result : Nat)
deriving DecidableEq, Repr

def KernelError.message : KernelError → String
  | alreadyExists => "key already exists"
  | notFound => "key not found"
  | unexpectedEnd needed remaining =>
    s!"unexpected end of policy data (needed {needed} bytes, {remaining} left)"
  | bitSet fault => s!"invalid ebitmap: {fault.message}"
  | access fault => s!"invalid avtab: {fault.message}"
  | header fault => s!"invalid policy header: {fault.message}"
  | version number fault => s!"policy version {number} is not supported: {fault.message}"
  | transitionConflict source existing result =>
    "conflicting typetransition rule: " ++
      s!"source type {source} already transitions to {existing} instead of {result}"

end CilPolicy
