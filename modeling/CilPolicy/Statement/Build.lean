import CilPolicy.Report
import CilPolicy.Source.Tree
import CilPolicy.Word

/-!
From parse trees to statements. A statement's arguments are first checked against
the slots its keyword asks for and then read from left to right, so a list of the
wrong shape is refused before any fault inside it.
-/

namespace CilPolicy

/-- The keyword and place of the statement being built. -/
structure Site where
  keyword : String
  location : Location
  /-- Declared names may have dots. -/
  qualified : Bool

/-- Building a part of a statement. -/
abbrev Build := ReaderT Site (Except Diagnostic)

/-- What an argument has to be: a leaf, a list with items, either of these, any list,
or anything. -/
inductive Slot where
  | word
  | list
  | filled
  | anyList
  | any
deriving DecidableEq, Repr

def Slot.accepts : Slot → Node → Bool
  | word, .leaf .. => true
  | word, .list .. => false
  | list, .list _ (_ :: _) => true
  | list, _ => false
  | filled, .list _ [] => false
  | filled, _ => true
  | anyList, .list .. => true
  | anyList, .leaf .. => false
  | any, _ => true

/-- The value of a leaf, empty for a list. -/
def Node.word (n : Node) : String :=
  n.value?.getD ""

namespace Build

def refuse (fault : ShapeFault) : Build α := do
  throw (.shape fault (← read).location)

def malformed (detail : ShapeDetail) : Build α := do
  refuse (.malformed (← read).keyword detail)

/-! ### Arguments by number -/

def one (a : Slot) : List Node → Build Node
  | [x] => if a.accepts x then pure x else malformed .arguments
  | _ => malformed .arguments

def two (a b : Slot) : List Node → Build (Node × Node)
  | [x, y] => if a.accepts x && b.accepts y then pure (x, y) else malformed .arguments
  | _ => malformed .arguments

def three (a b c : Slot) : List Node → Build (Node × Node × Node)
  | [x, y, z] =>
    if a.accepts x && b.accepts y && c.accepts z then pure (x, y, z) else malformed .arguments
  | _ => malformed .arguments

def four (a b c d : Slot) : List Node → Build (Node × Node × Node × Node)
  | [x, y, z, w] =>
    if a.accepts x && b.accepts y && c.accepts z && d.accepts w then pure (x, y, z, w)
    else malformed .arguments
  | _ => malformed .arguments

/-- Two words. -/
def pair (args : List Node) : Build (String × String) := do
  let (a, b) ← two .word .word args
  return (a.word, b.word)

/-- A clause over two words. -/
def pairOf (make : String → String → Clause) (args : List Node) : Build Clause := do
  let (a, b) ← pair args
  return make a b

/-! ### Leaves -/

/-- A name that is declared here. -/
def name (kind : NameKind) (n : Node) : Build String := do
  match kind.fault? (← read).qualified n.word with
  | some fault => throw (.invalidName fault n.location)
  | none => return n.word

/-- The values of a list of leaves. -/
def words (items : List Node) : Build (List String) :=
  items.mapM fun n =>
    match n with
    | .leaf _ v => pure v
    | .list .. => malformed .arguments

/-- A word, or a list of words. -/
def wordOrWords : Node → Build (List String)
  | .leaf _ v => pure [v]
  | .list _ items => words items

def truthValue (n : Node) : Build Bool :=
  match n.value? with
  | some "true" => pure true
  | some "false" => pure false
  | _ => malformed .truthValue

def number (limit : Nat) (n : Node) : Build Nat :=
  match Text.number? limit n.word with
  | some v => pure v
  | none => malformed (.number n.word)

/-- A number, or a list of the least and the greatest. -/
def interval (limit : Nat) : Node → Build Interval
  | .leaf p v => do
    let value ← number limit (.leaf p v)
    return ⟨value, value⟩
  | .list _ items => do
    let (low, high) ← two .word .word items
    return ⟨← number limit low, ← number limit high⟩

def ipAddress (text : String) : Build IpAddress :=
  match IpAddress.parse? text with
  | some a => pure a
  | none => malformed (.address text)

def addressArg : Node → Build AddressArg
  | .leaf _ v => pure (.named v)
  | .list _ items => do
    let a ← one .word items
    return .given (← ipAddress a.word)

/-! ### Expressions -/

/-- What the items of an expression are; it decides which operators are allowed. -/
inductive ExprKind where
  | set
  | condition
  | category
  | extended
deriving DecidableEq, Repr

/-- Refuses an operator that expressions of the kind do not have. -/
def checkOperator (kind : ExprKind) (op : Operator) : Build Unit :=
  match op with
  | .eq | .neq => if kind == .condition then pure () else malformed (.operatorInSet op)
  | .all => if kind == .condition then malformed (.operatorInCondition op) else pure ()
  | .range =>
    if kind == .category || kind == .extended then pure () else malformed (.operatorForRange op)
  | .not | .and | .or | .xor => pure ()

/-- The operands an operator takes. -/
def operandsFit (op : Operator) (operands : List Node) : Bool :=
  match op, operands with
  | .all, [] => true
  | .not, [a] => Slot.filled.accepts a
  | .range, [a, b] => Slot.word.accepts a && Slot.word.accepts b
  | .and, [a, b] | .or, [a, b] | .xor, [a, b] | .eq, [a, b] | .neq, [a, b] =>
    Slot.filled.accepts a && Slot.filled.accepts b
  | _, _ => false

mutual

/-- A single name, or a list that is an expression. -/
def expr (kind : ExprKind) : Node → Build (Expr String)
  | .leaf _ v =>
    match Operator.ofKeyword? v with
    | some op => malformed (.operatorAlone op)
    | none => pure (.item v)
  | .list _ items =>
    match items with
    | [] => malformed .arguments
    | head :: rest =>
      match head.value?.bind Operator.ofKeyword? with
      | some op => do
        checkOperator kind op
        if operandsFit op rest then return .apply op (← exprs kind rest) else malformed .arguments
      | none =>
        if (head :: rest).all Slot.filled.accepts then do
          return .list ((← expr kind head) :: (← exprs kind rest))
        else malformed .arguments

def exprs (kind : ExprKind) : List Node → Build (List (Expr String))
  | [] => pure []
  | n :: ns => do
    let e ← expr kind n
    let es ← exprs kind ns
    return e :: es

end

/-! ### Compound arguments -/

def classPerms : Node → Build (ClassPerms String)
  | .leaf _ v => pure (.named v)
  | .list _ [cls, permissions] =>
    if Slot.word.accepts cls && Slot.list.accepts permissions then
      return .given cls.word (← expr .set permissions)
    else malformed .classPermissions
  | .list .. => malformed .classPermissions

def levelSpec (items : List Node) : Build (LevelSpec String) :=
  match items with
  | [sensitivity] =>
    if Slot.word.accepts sensitivity then pure ⟨sensitivity.word, none⟩ else malformed .level
  | [sensitivity, categories] =>
    if Slot.word.accepts sensitivity && Slot.list.accepts categories then
      return ⟨sensitivity.word, some (← expr .category categories)⟩
    else malformed .level
  | _ => malformed .level

def levelArg : Node → Build (LevelArg String)
  | .leaf _ v => pure (.named v)
  | .list _ items => .given <$> levelSpec items

def rangeSpec (items : List Node) : Build (RangeSpec String) :=
  match items with
  | [low, high] =>
    if Slot.filled.accepts low && Slot.filled.accepts high then
      return ⟨← levelArg low, ← levelArg high⟩
    else malformed .range
  | _ => malformed .range

def rangeArg : Node → Build (RangeArg String)
  | .leaf _ v => pure (.named v)
  | .list _ items => .given <$> rangeSpec items

def contextSpec (items : List Node) : Build (ContextSpec String) :=
  match items with
  | [user, role, type, range] =>
    if [user, role, type].all Slot.word.accepts && Slot.filled.accepts range then
      return ⟨user.word, role.word, type.word, ← rangeArg range⟩
    else malformed .context
  | _ => malformed .context

def contextArg : Node → Build (ContextArg String)
  | .leaf _ v => pure (.named v)
  | .list _ items => .given <$> contextSpec items

def extendedSpec (items : List Node) : Build (ExtendedSpec String (Expr String)) :=
  match items with
  | [kind, cls, numbers] =>
    if Slot.word.accepts kind && Slot.word.accepts cls && Slot.list.accepts numbers then
      if kind.word == "ioctl" then return ⟨cls.word, ← expr .extended numbers⟩
      else malformed (.extendedKind kind.word)
    else malformed .extended
  | _ => malformed .extended

/-! ### Statements -/

/-- Keywords of the language that this compiler leaves out. -/
def unsupported : List String :=
  ["block", "blockabstract", "blockinherit", "in", "macro", "call", "optional", "tunable",
    "tunableif", "constrain", "mlsconstrain", "validatetrans", "mlsvalidatetrans",
    "expandtypeattribute", "selinuxuser", "selinuxuserdefault", "userprefix"]

/-- A statement that declares a name and no more. -/
def declaration (what : Declaration) (kind : NameKind) (args : List Node) : Build Clause := do
  return .declare what (← name kind (← one .word args))

def attributeSet (kind : Entity) (args : List Node) : Build Clause := do
  let (attr, members) ← two .word .filled args
  return .attributeSet kind attr.word (← expr .set members)

def permissions (owner : PermissionOwner) (args : List Node) : Build Clause := do
  let (owned, list) ← two .word (if owner == .cls then .anyList else .list) args
  let ownerName ← name .other owned
  let names ← list.items.mapM fun n =>
    match n with
    | .leaf .. => name .permission n
    | .list .. => malformed .permission
  return .permissions owner ownerName names

/-- An ordering statement; only a list of classes may be marked as unordered. -/
def order (kind : OrderKind) (args : List Node) : Build Clause := do
  let items ← words (← one .list args).items
  match items.findIdx? (· == "unordered") with
  | none => return .order kind items
  | some i => if kind == .cls && i == 0 then return .order kind items else malformed .unordered

def defaults (kind : DefaultKind) (args : List Node) : Build Clause := do
  let (classes, object) ← two .filled .word args
  let classes ← wordOrWords classes
  match DefaultObject.ofKeyword? object.word with
  | some o => return .defaults kind classes o
  | none => malformed (.defaultObject object.word)

def defaultRange (args : List Node) : Build Clause := do
  let (classes, object, levels) ← match args with
    | [a, b] => do
      let (a, b) ← two .filled .word [a, b]
      pure (a, b, none)
    | _ => do
      let (a, b, c) ← three .filled .word .word args
      pure (a, b, some c.word)
  let classes ← wordOrWords classes
  match DefaultRange.ofKeywords? object.word levels with
  | some r => return .defaultRange classes r
  | none => malformed .defaultRange

def access (kind : AccessKind) (args : List Node) : Build Clause := do
  let (source, target, permissions) ← three .word .word .filled args
  return .access kind source.word target.word (← classPerms permissions)

def extended (kind : AccessKind) (args : List Node) : Build Clause := do
  let (source, target, permissions) ← three .word .word .filled args
  let permissions ← match permissions with
    | .leaf _ v => pure (ExtendedArg.named v)
    | .list _ items => ExtendedArg.given <$> extendedSpec items
  return .extended kind source.word target.word permissions

def typeRule (kind : TypeRuleKind) (args : List Node) : Build Clause := do
  let (source, target, cls, result) ← four .word .word .word .word args
  return .typeRule kind source.word target.word cls.word result.word

/-- A transition with or without the name of the object. -/
def typeTransition (args : List Node) : Build Clause :=
  match args with
  | [source, target, cls, objectName, result] =>
    if args.all Slot.word.accepts then
      pure (.namedTransition source.word target.word cls.word objectName.word result.word)
    else malformed .arguments
  | _ => typeRule .transition args

def fileContext (args : List Node) : Build Clause := do
  let (path, kind, context) ← three .word .word .any args
  match FileKind.ofKeyword? kind.word with
  | none => malformed (.fileKind kind.word)
  | some k =>
    let context ← match context with
      | .list _ [] => pure none
      | c => some <$> contextArg c
    return .fileContext ⟨path.word, k⟩ context

def filesystemUse (args : List Node) : Build Clause := do
  let (behavior, filesystem, context) ← three .word .word .filled args
  match FilesystemUse.ofKeyword? behavior.word with
  | none => malformed (.filesystemUse behavior.word)
  | some b => return .filesystemUse ⟨b, filesystem.word⟩ (← contextArg context)

def port (args : List Node) : Build Clause := do
  let (protocol, ports, context) ← three .word .filled .filled args
  match PortProtocol.ofKeyword? protocol.word with
  | none => malformed (.protocol protocol.word)
  | some p =>
    let ports ← interval wordBound ports
    if 65535 < ports.low || 65535 < ports.high then malformed .portRange
    else return .port ⟨p, ports.low, ports.high⟩ (← contextArg context)

/-- The clause of a statement with the keyword. -/
def clause (keyword : String) (args : List Node) : Build Clause :=
  match keyword with
  -- types
  | "type" => declaration (.entity .type) .type args
  | "typealias" => declaration (.aliasName .type) .type args
  | "typeattribute" => declaration (.attr .type) .type args
  | "typealiasactual" => pairOf (.bindAlias .type) args
  | "typeattributeset" => attributeSet .type args
  | "typebounds" => pairOf (.bounds .type) args
  | "typepermissive" => return .typePermissive (← one .word args).word
  -- roles
  | "role" => declaration (.entity .role) .role args
  | "roleattribute" => declaration (.attr .role) .role args
  | "roletype" => pairOf .roleType args
  | "roleattributeset" => attributeSet .role args
  | "rolebounds" => pairOf (.bounds .role) args
  | "roleallow" => pairOf .roleAllow args
  | "roletransition" => do
    let (source, target, cls, result) ← four .word .word .word .word args
    return .roleTransition source.word target.word cls.word result.word
  -- users
  | "user" => declaration (.entity .user) .user args
  | "userattribute" => declaration (.attr .user) .user args
  | "userrole" => pairOf .userRole args
  | "userattributeset" => attributeSet .user args
  | "userbounds" => pairOf (.bounds .user) args
  | "userlevel" => do
    let (user, level) ← two .word .filled args
    return .userLevel user.word (← levelArg level)
  | "userrange" => do
    let (user, range) ← two .word .filled args
    return .userRange user.word (← rangeArg range)
  -- classes and permissions
  | "common" => permissions .common args
  | "class" => permissions .cls args
  | "classmap" => permissions .map args
  | "classcommon" => pairOf .classCommon args
  | "classorder" => order .cls args
  | "classpermission" => declaration .classPermission .other args
  | "classpermissionset" => do
    let (set, permissions) ← two .word .list args
    return .classPermissionSet set.word (← classPerms permissions)
  | "classmapping" => do
    let (map, permission, permissions) ← three .word .word .filled args
    return .classMapping map.word permission.word (← classPerms permissions)
  | "defaultuser" => defaults .user args
  | "defaultrole" => defaults .role args
  | "defaulttype" => defaults .type args
  | "defaultrange" => defaultRange args
  -- levels
  | "sensitivity" => declaration .sensitivity .other args
  | "sensitivityalias" => declaration (.aliasName .sensitivity) .other args
  | "sensitivityaliasactual" => pairOf (.bindAlias .sensitivity) args
  | "sensitivityorder" => order .sensitivity args
  | "category" => declaration .category .category args
  | "categoryalias" => declaration (.aliasName .category) .category args
  | "categoryaliasactual" => pairOf (.bindAlias .category) args
  | "categoryorder" => order .category args
  | "categoryset" => do
    let (set, categories) ← two .word .list args
    return .categorySet (← name .category set) (← expr .category categories)
  | "sensitivitycategory" => do
    let (sensitivity, categories) ← two .word .filled args
    return .sensitivityCategory sensitivity.word (← expr .category categories)
  | "level" => do
    let (level, spec) ← two .word .list args
    return .level (← name .other level) (← levelSpec spec.items)
  | "levelrange" => do
    let (range, spec) ← two .word .list args
    return .levelRange (← name .other range) (← rangeSpec spec.items)
  -- booleans and rules
  | "boolean" => do
    let (bool, value) ← two .word .word args
    return .boolean (← name .bool bool) (← truthValue value)
  | "allow" => access .allow args
  | "auditallow" => access .auditAllow args
  | "dontaudit" => access .dontAudit args
  | "neverallow" => access .neverAllow args
  | "allowx" => extended .allow args
  | "auditallowx" => extended .auditAllow args
  | "dontauditx" => extended .dontAudit args
  | "neverallowx" => extended .neverAllow args
  | "permissionx" => do
    let (set, spec) ← two .word .list args
    return .extendedSet (← name .extended set) (← extendedSpec spec.items)
  | "typetransition" => typeTransition args
  | "typechange" => typeRule .change args
  | "typemember" => typeRule .member args
  | "rangetransition" => do
    let (source, target, cls, range) ← four .word .word .word .filled args
    return .rangeTransition source.word target.word cls.word (← rangeArg range)
  -- initial contexts and labels
  | "sid" => declaration .sid .other args
  | "sidorder" => order .sid args
  | "sidcontext" => do
    let (sid, context) ← two .word .filled args
    return .sidContext sid.word (← contextArg context)
  | "context" => do
    let (context, spec) ← two .word .list args
    return .context (← name .other context) (← contextSpec spec.items)
  | "filecon" => fileContext args
  | "fsuse" => filesystemUse args
  | "genfscon" => do
    let (filesystem, path, context) ← three .word .word .filled args
    return .genfs ⟨filesystem.word, path.word⟩ (← contextArg context)
  | "portcon" => port args
  | "nodecon" => do
    let (address, mask, context) ← three .filled .filled .filled args
    return .node (← addressArg address) (← addressArg mask) (← contextArg context)
  | "netifcon" => do
    let (interface, first, second) ← three .word .filled .filled args
    return .interface interface.word (← contextArg first) (← contextArg second)
  | "ipaddr" => do
    let (address, text) ← two .word .word args
    return .address (← name .other address) (← ipAddress text.word)
  | "ibpkeycon" => do
    let (subnet, keys, context) ← three .word .filled .filled args
    return .partitionKey subnet.word (← interval wordBound keys) (← contextArg context)
  | "ibendportcon" => do
    let (device, port, context) ← three .word .word .filled args
    return .endPort ⟨device.word, ← number wordBound port⟩ (← contextArg context)
  | "pirqcon" => do
    let (irq, context) ← two .word .filled args
    return .interrupt (← number wordBound irq) (← contextArg context)
  | "iomemcon" => do
    let (addresses, context) ← two .filled .filled args
    return .ioMemory (← interval longBound addresses) (← contextArg context)
  | "ioportcon" => do
    let (ports, context) ← two .filled .filled args
    return .ioPort (← interval wordBound ports) (← contextArg context)
  | "pcidevicecon" => do
    let (device, context) ← two .word .filled args
    return .pciDevice (← number wordBound device) (← contextArg context)
  | "devicetreecon" => do
    let (path, context) ← two .word .filled args
    return .deviceTree path.word (← contextArg context)
  -- settings
  | "handleunknown" => do
    let value ← one .word args
    match HandleUnknown.ofName? value.word with
    | some h => return .handleUnknown h
    | none => malformed (.handleUnknown value.word)
  | "mls" => return .mls (← truthValue (← one .word args))
  | "policycap" => return .capability (← name .other (← one .word args))
  | other =>
    if unsupported.contains other then refuse (.unsupported other) else refuse (.unknownKeyword other)

/-- The condition of a conditional; a plain list must hold one condition. -/
def condition (n : Node) : Build (Expr String) := do
  let e ← expr .condition n
  match e with
  | .list [_] => return e
  | .list _ => malformed .arguments
  | _ => return e

/-- The arguments of a conditional: a condition and one or two lists. -/
def conditionalFits (args : List Node) : Bool :=
  match args with
  | [c, a] => Slot.filled.accepts c && Slot.list.accepts a
  | [c, a, b] => Slot.filled.accepts c && Slot.list.accepts a && Slot.list.accepts b
  | _ => false

def branchKind (head : Node) : BranchKind :=
  match head.value? with
  | some "true" => .whenTrue
  | some "false" => .whenFalse
  | some other => .other other
  | none => .other ""

end Build

namespace Statement

mutual

/-- The statement that a list stands for. -/
def ofNode (qualified : Bool) : Node → Except Diagnostic Statement
  | .leaf p _ => .error (.shape .noKeyword p.location)
  | .list p items =>
    match items with
    | [] => .error (.shape .noKeyword p.location)
    | head :: args =>
      match head.value? with
      | none => .error (.shape .noKeyword p.location)
      | some keyword =>
        let site : Site := ⟨keyword, p.location, qualified⟩
        if keyword = "booleanif" then
          match args with
          | c :: arms =>
            if Build.conditionalFits (c :: arms) then do
              let condition ← Build.condition c site
              let branches ← branches qualified arms
              return .conditional site.location condition branches
            else Build.malformed .arguments site
          | [] => Build.malformed .arguments site
        else .plain site.location <$> Build.clause keyword args site

/-- The arms of a conditional. -/
def branches (qualified : Bool) : List Node → Except Diagnostic (List Branch)
  | [] => .ok []
  | n :: ns => do
    let first ← branch qualified n
    let others ← branches qualified ns
    return first :: others

def branch (qualified : Bool) : Node → Except Diagnostic Branch
  | .leaf p _ => .ok (.mk p.location (.other "") [])
  | .list p items =>
    match items with
    | [] => .ok (.mk p.location (.other "") [])
    | head :: body => .mk p.location (Build.branchKind head) <$> ofNodes qualified body

/-- The statements that lists stand for, in order. -/
def ofNodes (qualified : Bool) : List Node → Except Diagnostic (List Statement)
  | [] => .ok []
  | n :: ns => do
    let first ← ofNode qualified n
    let others ← ofNodes qualified ns
    return first :: others

end

mutual

/-- The statements of a file or of the region of a line mark. -/
def ofSource (qualified : Bool) : Node → Except Diagnostic (List Statement)
  | .leaf .. => .ok []
  | .list _ items =>
    match items with
    | _ :: _ :: _ :: _ :: rest => ofRegion qualified rest
    | _ => .ok []

/-- Statements and regions side by side. -/
def ofRegion (qualified : Bool) : List Node → Except Diagnostic (List Statement)
  | [] => .ok []
  | n :: ns =>
    if n.isSource then do
      let first ← ofSource qualified n
      let others ← ofRegion qualified ns
      return first ++ others
    else do
      let first ← ofNode qualified n
      let others ← ofRegion qualified ns
      return first :: others

end

end Statement

/-- The statements of all files, in order. -/
def ParseTree.statements (tree : ParseTree) (qualified : Bool) : Except Diagnostic (List Statement) :=
  List.flatten <$> tree.files.mapM (Statement.ofSource qualified)

/-- The statements of all files, with a note of how many there are. -/
def ParseTree.build (tree : ParseTree) (qualified : Bool) : Report (List Statement) := do
  let statements ← tree.statements qualified
  Report.info s!"Built {statements.length} statements"
  return statements

end CilPolicy
