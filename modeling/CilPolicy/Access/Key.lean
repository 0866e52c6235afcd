/-!
Keys and data of access rules. A key names a source type, a target type, a class
and the kinds of rule it speaks of; a datum is a word of permissions, the value of
a result type, or a set of extended permissions.
-/

namespace CilPolicy

/-- Bits that mark the kinds of an access rule. -/
abbrev RuleKinds := BitVec 16

namespace RuleKinds

def allowed : RuleKinds := 0x0001
def auditAllow : RuleKinds := 0x0002
def auditDeny : RuleKinds := 0x0004
def transition : RuleKinds := 0x0010
def member : RuleKinds := 0x0020
def change : RuleKinds := 0x0040
def extendedAllowed : RuleKinds := 0x0100
def extendedAuditAllow : RuleKinds := 0x0200
def extendedDontAudit : RuleKinds := 0x0400

/-- Marks a rule that is in force; it is no kind of its own. -/
def enabled : RuleKinds := 0x8000

/-- The kinds that hold permissions. -/
def vectors : RuleKinds := 0x0007

/-- The kinds that hold a result type. -/
def results : RuleKinds := 0x0070

/-- The kinds that hold extended permissions. -/
def extended : RuleKinds := 0x0700

/-- The nine kinds, in the order in which a record of words lists its data. -/
def recordOrder : List RuleKinds :=
  [allowed, auditDeny, auditAllow, transition, change, member,
    extendedAllowed, extendedAuditAllow, extendedDontAudit]

/-- Some kind is in both. -/
def overlap (a b : RuleKinds) : Bool :=
  (a &&& b) != 0

/-- The kinds without the mark of a rule in force. -/
def plain (k : RuleKinds) : RuleKinds :=
  k &&& ~~~enabled

end RuleKinds

/-- What an access rule speaks of. -/
structure AccessKey where
  source : UInt16
  target : UInt16
  cls : UInt16
  kinds : RuleKinds
deriving DecidableEq, Repr

namespace AccessKey

/-- Source, target and class as one number; keys are ordered by it. -/
def place (k : AccessKey) : Nat :=
  (k.source.toNat * 65536 + k.target.toNat) * 65536 + k.cls.toNat

/-- The key speaks of extended permissions. -/
def isExtended (k : AccessKey) : Bool :=
  k.kinds.overlap RuleKinds.extended

end AccessKey

/-- Extended permissions: functions of one driver, or whole drivers. -/
structure ExtendedSet where
  form : UInt8
  driver : UInt8
  bits : BitVec 256
deriving DecidableEq, Repr

namespace ExtendedSet

/-- The bits are functions of the driver. -/
def functionForm : UInt8 := 1

/-- The bits are drivers, each with all its functions. -/
def driverForm : UInt8 := 2

def has (x : ExtendedSet) (bit : Nat) : Bool :=
  x.bits.getLsbD bit

def insert (x : ExtendedSet) (bit : Nat) : ExtendedSet :=
  { x with bits := x.bits ||| (1#256 <<< bit) }

def isEmpty (x : ExtendedSet) : Bool :=
  x.bits == 0

/-- The set bits, ascending. -/
def toList (x : ExtendedSet) : List Nat :=
  (List.range 256).filter x.has

/-- The set lets a call through, given by its driver and its function. -/
def admits (x : ExtendedSet) (driver function : Nat) : Bool :=
  if x.form == driverForm then x.has driver
  else x.driver.toNat == driver && x.has function

end ExtendedSet

/-- What an access rule says. -/
structure AccessDatum where
  data : BitVec 32
  extended : Option ExtendedSet
deriving DecidableEq, Repr

namespace AccessDatum

def ofWord (word : BitVec 32) : AccessDatum := ⟨word, none⟩

def ofExtended (x : ExtendedSet) : AccessDatum := ⟨0, some x⟩

end AccessDatum

/-- A key and its datum. -/
structure AccessEntry where
  key : AccessKey
  datum : AccessDatum
deriving DecidableEq, Repr

end CilPolicy
