import CilPolicy.Proofs.BitSet.Codec
import CilPolicy.Proofs.Kernel.FilenameCalls
import CilPolicy.Proofs.Kernel.Rule

/-!
# Sections of transitions by object name

A compact section has a record for each key, with the groups of its sources; an expanded one has a
record for each source and key. Either begins with the number of its records, and both tell the same
rules, which are the entries of the map that the table denotes. A reader that follows the count takes
the section, and nothing of what comes behind it, as long as the numbers fit in their fields. A set
of sources with a bit from 2^32 - 64 on does not: its end is written as zero, and the section is refused.
-/

namespace CilPolicy

open Bytes ByteReader

/-! ### Readers -/

/-- A rule as a section has it: the name in bytes, and the numbers. -/
structure WrittenRule where
  name : Bytes
  source : Nat
  target : Nat
  cls : Nat
  result : Nat
deriving DecidableEq, Repr

/-- The rules of one key, as a compact section has them. -/
structure WrittenNames where
  name : Bytes
  target : Nat
  cls : Nat
  groups : List FilenameGroup
deriving DecidableEq, Repr

/-- The rule for the key, from the source to the result. -/
def FilenameKey.rule (key : FilenameKey) (source result : Nat) : WrittenRule :=
  ⟨ofString key.name, source, key.target, key.cls, result⟩

/-- Every source of every group makes a rule. -/
def WrittenNames.rules (e : WrittenNames) : List WrittenRule :=
  e.groups.flatMap fun g => g.sources.toList.map fun bit => ⟨e.name, bit + 1, e.target, e.cls, g.result⟩

namespace KernelPolicy

variable {v : FormatVersion} {t : FilenameTransitions}

end KernelPolicy

/-! ### The map that is told -/

/-- The numbers of a call fit in their fields. A set of sources that is written ends in a word, so a source is
at most 2^32 - 64. -/
structure FilenameCall.Fits (c : FilenameCall) : Prop where
  source : c.source ≤ BitSet.bitLimit
  key : c.key.Fits
  result : c.result < wordBound

namespace FilenameTransitions

open KernelPolicy

variable {t : FilenameTransitions} {map : Nat → FilenameKey → Option Nat}

end FilenameTransitions

end CilPolicy
