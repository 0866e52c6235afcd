import CilPolicy.Document
import CilPolicy.Statement.Basic
import CilPolicy.Text.Quoted

/-!
Statements as structured values, for listings.
-/

namespace CilPolicy

def Expr.document (e : Expr String) : Document :=
  .text (e.text id)

def ClassPerms.document : ClassPerms String → Document
  | named set => set
  | given cls permissions => .record [("class", cls), ("perms", permissions.document)]

def LevelSpec.document (l : LevelSpec String) : Document :=
  .record [("sens", l.sensitivity), ("cats", .ofOption Expr.document l.categories)]

def LevelArg.document : LevelArg String → Document
  | named level => level
  | given spec => spec.document

def RangeSpec.document (r : RangeSpec String) : Document :=
  .record [("low", r.low.document), ("high", r.high.document)]

def RangeArg.document : RangeArg String → Document
  | named range => range
  | given spec => spec.document

def ContextSpec.document (c : ContextSpec String) : Document :=
  .record [("user", c.user), ("role", c.role), ("type", c.type), ("range", c.range.document)]

def ContextArg.document : ContextArg String → Document
  | named context => context
  | given spec => spec.document

def ExtendedSpec.document (x : ExtendedSpec String (Expr String)) : Document :=
  .record [("class", x.cls), ("perms", x.numbers.document)]

def ExtendedArg.document : ExtendedArg String (Expr String) → Document
  | named permissions => permissions
  | given spec => spec.document

/-- The octets in hexadecimal. -/
def IpAddress.hex (a : IpAddress) : String :=
  Text.hexBytes a.octets

def AddressArg.document : AddressArg → Document
  | named name => name
  | given address => .record [("ip", address.hex)]

def HandleUnknown.document (h : HandleUnknown) : Document :=
  h.name

/-- The arguments of a clause, in the order they are written. -/
def Clause.arguments : Clause → List Document
  | declare _ name => [name]
  | bindAlias _ aliasName actual => [aliasName, actual]
  | attributeSet _ name members => [name, members.document]
  | bounds _ parent child => [parent, child]
  | typePermissive type => [type]
  | roleType role type => [role, type]
  | roleAllow source target => [source, target]
  | roleTransition source target cls result => [source, target, cls, result]
  | userRole user role => [user, role]
  | userLevel user l => [user, l.document]
  | userRange user range => [user, range.document]
  | permissions _ name perms => [name, .texts perms]
  | classCommon cls common => [cls, common]
  | order _ items => [.texts items]
  | classPermissionSet name perms => [name, perms.document]
  | classMapping map permission perms => [map, permission, perms.document]
  | defaults _ classes object => [.texts classes, object.number]
  | defaultRange classes range => [.texts classes, range.number]
  | categorySet name categories => [name, categories.document]
  | sensitivityCategory sensitivity categories => [sensitivity, categories.document]
  | level name spec => [name, spec.document]
  | levelRange name spec => [name, spec.document]
  | boolean name value => [name, value]
  | access _ source target perms => [source, target, perms.document]
  | extended _ source target perms => [source, target, perms.document]
  | extendedSet name spec => [name, spec.document]
  | typeRule _ source target cls result => [source, target, cls, result]
  | namedTransition source target cls objectName result => [source, target, cls, objectName, result]
  | rangeTransition source target cls range => [source, target, cls, range.document]
  | sidContext sid c => [sid, c.document]
  | context name spec => [name, spec.document]
  | fileContext selector c =>
    [selector.path, selector.kind.flag, .ofOption ContextArg.document c]
  | filesystemUse selector c =>
    [selector.behavior.number, selector.filesystem, c.document]
  | genfs selector c => [selector.filesystem, selector.path, c.document]
  | port selector c =>
    [selector.protocol.number, selector.low, selector.high, c.document]
  | node a mask c => [a.document, mask.document, c.document]
  | interface name inside packet => [name, inside.document, packet.document]
  | address name a => [name, a.hex]
  | partitionKey subnet keys c => [subnet, keys.low, keys.high, c.document]
  | endPort selector c => [selector.device, selector.port, c.document]
  | interrupt irq c => [irq, c.document]
  | ioMemory addresses c =>
    [toString addresses.low, toString addresses.high, c.document]
  | ioPort ports c => [ports.low, ports.high, c.document]
  | pciDevice device c => [device, c.document]
  | deviceTree path c => [path, c.document]
  | handleUnknown value => [value.name]
  | mls value => [value]
  | capability name => [name]

def BranchKind.document : BranchKind → Document
  | whenTrue => "true"
  | whenFalse => "false"
  | other keyword => .record [("other", keyword)]

mutual

def Statement.document : Statement → Document
  | .plain location clause =>
    .record [("kw", clause.keyword), ("args", .list clause.arguments), ("loc", location.text)]
  | .conditional location condition branches =>
    .record [("kw", "booleanif"),
      ("args", .list [condition.document, .list (Branch.documents branches)]), ("loc", location.text)]

def Branch.document : Branch → Document
  | .mk location kind body =>
    .record [("kind", kind.document), ("loc", location.text), ("body", .list (Statement.documents body))]

def Branch.documents : List Branch → List Document
  | [] => []
  | b :: bs => b.document :: Branch.documents bs

def Statement.documents : List Statement → List Document
  | [] => []
  | s :: ss => s.document :: Statement.documents ss

end

end CilPolicy
