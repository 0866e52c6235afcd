import CilPolicy.Database.Order
import CilPolicy.Evaluation.Set
import CilPolicy.Graph.Cycle

/-!
Checks that come before evaluation. Bounds must not run in a circle, no attribute or
category set may contain itself, and no class permission may expand into itself; so
evaluation ends.
-/

namespace CilPolicy

/-- A node of the graph of class permissions: a named set, or a permission of a map. -/
inductive PermissionNode where
  | set (id : Id)
  | mapped (cls permission : Id)
deriving DecidableEq, Repr

namespace Database

/-- The nodes that a reference to class permissions leads to. -/
def permissionTargets (db : Database) : ClassPerms Id → List PermissionNode
  | .named id => [.set id]
  | .given cls permissions =>
    match db.classes.value? cls with
    | some info =>
      if info.isMap then (db.permissionBits info permissions).toList.map (.mapped cls) else []
    | none => []

/-- What a node of the graph stands for. -/
def permissionRefs (db : Database) : PermissionNode → List (ClassPerms Id)
  | .set id => (db.classPermissions.value? id).getD []
  | .mapped cls permission =>
    ((db.classes.value? cls).bind fun c => c.permissions.value? permission).getD []

def permissionNext (db : Database) (node : PermissionNode) : List PermissionNode :=
  (db.permissionRefs node).flatMap db.permissionTargets

/-- All nodes: the named sets, then the permissions of the maps. -/
def permissionNodes (db : Database) : List PermissionNode :=
  (List.range db.classPermissions.size).map .set
    ++ (db.classes.indexed.filter (·.2.value.isMap)).flatMap fun (cls, d) =>
      (List.range d.value.permissions.size).map (.mapped cls)

/-- The attributes of a kind that stand in the sets of an attribute. -/
def attributesIn (sets : List (Expr Id)) (isAttribute : Id → Bool) : List Id :=
  (sets.flatMap Expr.leaves).filter isAttribute

def typeNext (db : Database) (id : Id) : List Id :=
  attributesIn (((db.types.value? id).map (·.sets)).getD []) fun t => db.types.test t (·.isAttribute)

def roleNext (db : Database) (id : Id) : List Id :=
  attributesIn (((db.roles.value? id).map (·.sets)).getD []) fun r => db.roles.test r (·.isAttribute)

def userNext (db : Database) (id : Id) : List Id :=
  attributesIn (((db.users.value? id).map (·.sets)).getD []) fun u => db.users.test u (·.isAttribute)

def categoryNext (db : Database) (id : Id) : List Id :=
  attributesIn (((db.categories.value? id).bind (·.members)).toList) fun c =>
    db.categories.test c (·.kind == .set)

/-- The bounds of a user run in a circle. -/
def userBoundsLoop (db : Database) (id : Id) : Bool :=
  Graph.loops db.users.size (fun u => (db.users.value? u).bind (·.bounds)) id

def roleBoundsLoop (db : Database) (id : Id) : Bool :=
  Graph.loops db.roles.size (fun r => (db.roles.value? r).bind (·.bounds)) id

def typeBoundsLoop (db : Database) (id : Id) : Bool :=
  Graph.loops db.types.size (fun t => (db.types.value? t).bind (·.bounds)) id

/-- What is wrong with the users before evaluation. -/
def userFaults (db : Database) : List Diagnostic :=
  (db.users.indexed.filter (!·.2.value.isAttribute)).flatMap fun (id, d) =>
    let fault (cause : Violation) : Diagnostic := .violation cause (some d.location)
    (if d.value.level.isNone then [fault (.noLevel d.name)] else [])
      ++ (if d.value.range.isNone then [fault (.noRange d.name)] else [])
      ++ (if db.userBoundsLoop id then [fault (.boundsCycle .user d.name)] else [])

/-- Permissions of maps that nothing is mapped to. -/
def mapFaults (db : Database) : List Diagnostic :=
  (db.classes.toList.filter (·.value.isMap)).flatMap fun c =>
    (c.value.permissions.toList.filter (·.value.isEmpty)).map fun p =>
      .violation (.unmapped c.name p.name) (some c.location)

/-- Named class permissions without content. -/
def emptySetFaults (db : Database) : List Diagnostic :=
  (db.classPermissions.toList.filter (·.value.isEmpty)).map fun d =>
    .violation (.emptyClassPermission d.name) (some d.location)

/-- A class permission that expands into itself. -/
def permissionCycle (db : Database) : List Diagnostic :=
  match Graph.findCycle db.permissionNodes db.permissionNext with
  | none => []
  | some (.set id) =>
    [.violation (.circularSet (db.classPermissions.nameOf id))
      (some (db.classPermissions.locationOf id))]
  | some (.mapped cls permission) =>
    let name := ((db.classes.value? cls).map (·.permissions.nameOf permission)).getD ""
    [.violation (.circularMap (db.classes.nameOf cls) name) (some (db.classes.locationOf cls))]

/-- A declaration of the registry that contains itself. -/
def selfReference (r : Registry α) (next : Id → List Id) : List Diagnostic :=
  match Graph.findCycle (List.range r.size) next with
  | none => []
  | some id => [.violation (.selfReference (r.nameOf id)) (some (r.locationOf id))]

/-- Everything that would keep evaluation from ending, and users without levels. -/
def preliminaryFaults (db : Database) : List Diagnostic :=
  db.userFaults ++ db.mapFaults ++ db.emptySetFaults ++ db.permissionCycle
    ++ selfReference db.types db.typeNext
    ++ selfReference db.roles db.roleNext
    ++ selfReference db.users db.userNext
    ++ selfReference db.categories db.categoryNext

/-- The checks before evaluation. -/
def preVerify (db : Database) : Report Unit :=
  Report.reject db.preliminaryFaults

end Database

end CilPolicy
