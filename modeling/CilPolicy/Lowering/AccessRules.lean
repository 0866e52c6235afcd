import CilPolicy.Access.Key
import CilPolicy.BitSet.Basic

/-!
Access rules gathered by key, in the order in which the keys first appear, and the
records in which extended permissions are kept.
-/

namespace CilPolicy

/-- Changes the value of a key, or adds the key at the end. -/
def upsert [DecidableEq κ] (key : κ) (change : Option ν → ν) : List (κ × ν) → List (κ × ν)
  | [] => [(key, change none)]
  | (k, v) :: rest =>
    if k = key then (k, change (some v)) :: rest else (k, v) :: upsert key change rest

namespace ExtendedSet

/-- The functions of a driver among 16-bit numbers. -/
def functionsOf (numbers : BitSet) (driver : Nat) : BitVec 256 :=
  let word (i : Nat) : BitVec 64 := numbers.wordAt (256 * driver + 64 * i)
  word 3 ++ word 2 ++ word 1 ++ word 0

/-- The drivers whose functions are all among the numbers. -/
def completeDrivers (numbers : BitSet) : List Nat :=
  (List.range 256).filter fun d => functionsOf numbers d == BitVec.allOnes 256

/-- The drivers with some functions among the numbers, but not all. -/
def partialDrivers (numbers : BitSet) : List Nat :=
  (List.range 256).filter fun d =>
    functionsOf numbers d != 0 && functionsOf numbers d != BitVec.allOnes 256

/-- The records of a set of numbers: one for all complete drivers, if there are any,
and one for each other driver. -/
def records (numbers : BitSet) : List ExtendedSet :=
  let complete := completeDrivers numbers
  (if complete.isEmpty then [] else [complete.foldl insert ⟨driverForm, 0, 0⟩])
    ++ (partialDrivers numbers).map fun d => ⟨functionForm, UInt8.ofNat d, functionsOf numbers d⟩

end ExtendedSet

/-- Access rules by key. -/
structure AccessRules where
  /-- Words of permissions and result types. -/
  words : List (AccessKey × BitVec 32) := []
  /-- Numbers of extended permissions. -/
  extended : List (AccessKey × BitSet) := []
deriving DecidableEq, Repr, Inhabited

namespace AccessRules

/-- The word of a key. -/
def word? (r : AccessRules) (key : AccessKey) : Option (BitVec 32) :=
  r.words.lookup key

/-- Grants permissions. What is not to be audited is stored as what is, so such words
have in common what all the rules leave. -/
def grant (r : AccessRules) (key : AccessKey) (permissions : BitVec 32) : AccessRules :=
  { r with words := upsert key (fun old =>
      if key.kinds = RuleKinds.auditDeny then old.getD (BitVec.allOnes 32) &&& ~~~permissions
      else old.getD 0 ||| permissions) r.words }

/-- Sets the result type of a key that has none. -/
def setResult (r : AccessRules) (key : AccessKey) (result : Nat) : AccessRules :=
  { r with words := r.words ++ [(key, BitVec.ofNat 32 result)] }

/-- Adds numbers of extended permissions. -/
def extend (r : AccessRules) (key : AccessKey) (numbers : BitSet) : AccessRules :=
  { r with extended := upsert key (fun old => (old.getD ∅).union numbers) r.extended }

/-- Number of keys. -/
def size (r : AccessRules) : Nat :=
  r.words.length + r.extended.length

/-- The entries of the rules, each key of extended permissions with all its records. -/
def toEntries (r : AccessRules) : List AccessEntry :=
  (r.words.map fun (key, word) => ⟨key, .ofWord word⟩)
    ++ r.extended.flatMap fun (key, numbers) =>
      (ExtendedSet.records numbers).map fun x => ⟨key, .ofExtended x⟩

end AccessRules

end CilPolicy
