import CilPolicy.Kernel.Policy
import CilPolicy.Lowering.Numbering

/-!
The symbol tables of the kernel policy.
-/

namespace CilPolicy

namespace SymbolTable

/-- The table of some names, which is filled when that many values have been handed out. -/
def ofList (bucketCount primaries : Nat) (symbols : List (String × α)) :
    Except KernelError (SymbolTable α) :=
  symbols.foldlM (fun table (name, datum) => table.insert name datum)
    ((SymbolTable.new bucketCount).reserve primaries).2

end SymbolTable

/-- Number of buckets of a table of permissions. -/
def permissionBuckets : Nat := 32

/-- The permissions of a registry; their values follow those of `before` others. The table
itself has handed out only so many of them. -/
def permissionSymbols (r : Registry α) (primaries before : Nat) : Except KernelError (SymbolTable Nat) :=
  SymbolTable.ofList permissionBuckets primaries (r.indexed.map fun (i, d) => (d.name, before + i + 1))

namespace Lowering

def commonSymbols (l : Lowering) : Except KernelError (SymbolTable CommonDatum) := do
  let symbols ← l.db.commons.indexed.mapM fun (id, d) => do
    return (d.name, ({ value := id + 1, permissions := ← permissionSymbols d.value d.value.size 0 } : CommonDatum))
  SymbolTable.ofList SymbolKind.commons.bucketCount l.db.commons.size symbols

def classSymbol (l : Lowering) (value : Nat) (d : Declared ClassInfo) :
    Except KernelError (String × ClassDatum) := do
  let c := d.value
  -- The values of a class run on from its common, so its own table hands out none.
  let permissions ← permissionSymbols c.permissions 0 (l.db.commonPermissions c).size
  return (d.name, {
    value
    common := c.common.map l.db.commons.nameOf
    permissions
    permissionCount := l.db.permissionCount c
    defaultUser := c.defaultUser
    defaultRole := c.defaultRole
    defaultType := c.defaultType
    defaultRange := c.defaultRange })

/-- The declarations of a numbering, each with its value. -/
def numbered (n : Numbering) (r : Registry α) : List (Nat × Id × Declared α) :=
  n.ids.zipIdx.filterMap fun (id, i) => (r.get? id).map fun d => (i + 1, id, d)

def classSymbols (l : Lowering) : Except KernelError (SymbolTable ClassDatum) := do
  let symbols ← (numbered l.classes l.db.classes).mapM fun (value, _, d) => l.classSymbol value d
  SymbolTable.ofList SymbolKind.classes.bucketCount l.classes.size symbols

/-- The values of the concrete types in a set, each less one. -/
def typeBits (l : Lowering) (types : BitSet) : BitSet :=
  .ofList ((types.toList.filter fun id => l.db.types.test id (·.kind == .concrete)).filterMap
    fun id => (l.types.value? id).map (· - 1))

/-- The value of the declaration that bounds another, zero when there is none. -/
def boundsValue (n : Numbering) (bounds : Option Id) : Nat :=
  (bounds.bind n.value?).getD 0

def roleSymbols (l : Lowering) : Except KernelError (SymbolTable RoleDatum) :=
  SymbolTable.ofList SymbolKind.roles.bucketCount l.roles.size
    ((numbered l.roles l.db.roles).map fun (value, id, d) => (d.name, {
      value
      bounds := boundsValue l.roles d.value.bounds
      dominates := .singleton (value - 1)
      types := l.typeBits (l.db.roleTypes.getD id ∅) }))

/-- What the type table has for a declaration, if it has anything. -/
def typeDatum? (l : Lowering) (id : Id) (t : TypeInfo) : Option TypeDatum :=
  (l.typeValue? id).map fun value =>
    match t.kind with
    | .concrete => ⟨value, .concrete, (t.bounds.bind l.typeValue?).getD 0⟩
    | .attr => ⟨value, .attr, 0⟩
    | .aliasName => ⟨value, .aliasName, 0⟩

def typeSymbols (l : Lowering) : Except KernelError (SymbolTable TypeDatum) :=
  SymbolTable.ofList SymbolKind.types.bucketCount l.types.size
    (l.db.types.indexed.filterMap fun (id, d) => (l.typeDatum? id d.value).map fun t => (d.name, t))

/-- The values of the permissive types. -/
def permissiveTypes (l : Lowering) : BitSet :=
  .ofList (l.db.types.indexed.filterMap fun (id, d) =>
    if d.value.permissive && d.value.kind == .concrete then l.types.value? id else none)

/-- The values of the roles of a user, each less one. -/
def roleBits (l : Lowering) (roles : BitSet) : BitSet :=
  .ofList (roles.toList.filterMap fun id => (l.roles.value? id).map (· - 1))

def userSymbol (l : Lowering) (value : Nat) (id : Id) (d : Declared UserInfo) :
    Except Diagnostic (String × UserDatum) := do
  let u := d.value
  let placed {α : Type} (r : Except LevelFault α) : Except Diagnostic α :=
    r.mapError fun fault => .violation (.level fault) (some d.location)
  let range ← match u.range with
    | some range => placed (l.evalRange range)
    | none => pure default
  let defaultLevel ← match u.level with
    | some level => placed (l.evalLevel level)
    | none => pure default
  return (d.name, {
    value
    bounds := boundsValue l.users u.bounds
    roles := l.roleBits (l.db.userRoles.getD id ∅)
    range
    defaultLevel })

def userSymbols (l : Lowering) : Except Diagnostic (SymbolTable UserDatum) := do
  let symbols ← (numbered l.users l.db.users).mapM fun (value, id, d) => l.userSymbol value id d
  (SymbolTable.ofList SymbolKind.users.bucketCount l.users.size symbols).mapError .kernel

def booleanSymbols (l : Lowering) : Except KernelError (SymbolTable BooleanDatum) :=
  SymbolTable.ofList SymbolKind.booleans.bucketCount l.booleans.size
    ((numbered l.booleans l.db.booleans).map fun (value, _, d) => (d.name, ⟨value, d.value⟩))

/-- The sensitivities in their order, then the aliases with the values of their actuals. -/
def sensitivitySymbols (l : Lowering) : Except KernelError (SymbolTable SensitivityDatum) :=
  let categories (id : Id) : BitSet := l.db.sensitivityCategories.getD id ∅
  SymbolTable.ofList SymbolKind.sensitivities.bucketCount l.sensitivities.size
    (((numbered l.sensitivities l.db.sensitivities).map fun (value, id, d) =>
        (d.name, ⟨false, ⟨value, categories id⟩⟩))
      ++ l.db.sensitivities.toList.filterMap fun d => do
        if !d.value.isAlias then none
        let actual ← d.value.actual
        let value ← l.sensitivities.value? actual
        return (d.name, ⟨true, ⟨value, categories actual⟩⟩))

/-- The categories in their order, then the aliases with the values of their actuals. -/
def categorySymbols (l : Lowering) : Except KernelError (SymbolTable CategoryDatum) :=
  let order : Numbering := ⟨l.db.orders.categories⟩
  SymbolTable.ofList SymbolKind.categories.bucketCount order.size
    (((numbered order l.db.categories).map fun (value, _, d) => (d.name, ⟨value, false⟩))
      ++ l.db.categories.toList.filterMap fun d => do
        if d.value.kind != .aliasName then none
        let value ← d.value.actual.bind order.value?
        return (d.name, ⟨value, true⟩))

/-- The capabilities that the policy declares. -/
def capabilities (l : Lowering) : BitSet :=
  .ofList (l.db.capabilities.filterMap fun (_, name) => (Capability.ofName? name).map (·.number.val))

/-- A type value's own bit and those of the kept attributes that contain it. -/
def typeAttributes (l : Lowering) : List BitSet :=
  let attributes := l.types.ids.zipIdx.filter fun (id, _) => l.db.types.test id (·.isAttribute)
  l.types.ids.zipIdx.map fun (id, bit) =>
    .ofList (bit :: (attributes.filter fun (attr, _) => (l.db.expandType attr).has id).map (·.2))

/-- A policy that has all symbols and no rules. -/
def symbols (l : Lowering) : Except Diagnostic KernelPolicy := do
  let commons ← l.commonSymbols.mapError .kernel
  let classes ← l.classSymbols.mapError .kernel
  let roles ← l.roleSymbols.mapError .kernel
  let types ← l.typeSymbols.mapError .kernel
  let users ← l.userSymbols
  let booleans ← l.booleanSymbols.mapError .kernel
  let sensitivities ← l.sensitivitySymbols.mapError .kernel
  let categories ← l.categorySymbols.mapError .kernel
  return { KernelPolicy.new l.options.target l.options.version with
    mls := l.settings.mls
    handleUnknown := l.settings.handleUnknown
    capabilities := l.capabilities
    permissive := l.permissiveTypes
    commons
    classes
    roles
    types
    users
    booleans
    sensitivities
    categories
    typeAttributes := l.typeAttributes }

end Lowering

end CilPolicy
