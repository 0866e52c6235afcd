import CilPolicy.BitSet.Codec
import CilPolicy.Setting
import CilPolicy.Text.Utf8

/-!
The header of a policy file, read back from its bytes.
-/

namespace CilPolicy

/-- The fields at the front of a policy file, and the names of its capabilities. -/
structure Header where
  target : Target
  version : Nat
  config : Nat
  symbolTables : Nat
  objectLists : Nat
  capabilities : List String
deriving DecidableEq, Repr

namespace Header

/-- Longest identification string. -/
def maxSignature : Nat := 32

/-- The name of a capability bit; a bit without a name is shown by its number. -/
def capabilityName (bit : Nat) : String :=
  match Capability.ofNumber? bit with
  | some c => c.name
  | none => s!"unknown({bit})"

def reader : ByteReader Header := do
  let magic ← ByteReader.u32
  if magic ≠ policyMagic then throw (.header (.magic magic))
  let length ← ByteReader.u32
  if length = 0 || maxSignature < length then throw (.header (.targetLength length))
  let raw ← ByteReader.bytes length
  let some target := (Text.ofUtf8? raw).bind Target.ofSignature?
    | throw (.header (.unknownTarget (Text.ofUtf8Lossy raw)))
  let version ← ByteReader.u32
  let config ← ByteReader.u32
  let symbolTables ← ByteReader.u32
  let objectLists ← ByteReader.u32
  let capabilities ←
    if FormatVersion.supports ⟨version⟩ .capabilities then
      (fun s => s.toList.map capabilityName) <$> BitSet.read
    else pure []
  return ⟨target, version, config, symbolTables, objectLists, capabilities⟩

/-- The header at the front of the bytes. -/
def read (data : Bytes) : Except KernelError Header :=
  (ByteReader.run? reader data).map (·.1)

def mls (h : Header) : Bool :=
  (h.config &&& mlsConfigBit) != 0

def handleUnknown (h : Header) : HandleUnknown :=
  .ofConfigBits h.config

end Header

end CilPolicy
