import CilPolicy.Compiler
import CilPolicy.Proofs.Database.Skeleton
import CilPolicy.Proofs.Lowering.Policy
import CilPolicy.Proofs.Verification.Context

/-!
# Contexts of a kernel policy

A kernel policy authorizes a context when the bit of its role is set for its user, the
bit of its type is set for its role and, with levels, its high level dominates its low
level. The contexts of all labels are authorized. The context of an initial SID is
authorized when it has a name; one that is written out is stored unseen, and is
authorized exactly when the policy permits it.
-/

namespace CilPolicy

/-- The contexts of all lists but that of the initial SIDs. -/
def ObjectContexts.labelContexts (o : ObjectContexts) : List Context :=
  o.filesystems.flatMap (fun x => [x.filesystem, x.file]) ++ o.ports.map (·.context)
    ++ o.interfaces.flatMap (fun x => [x.interface, x.packet]) ++ o.nodes.map (·.context)
    ++ o.filesystemUses.map (·.context) ++ o.nodes6.map (·.context)
    ++ o.partitionKeys.map (·.context) ++ o.endPorts.map (·.context)
    ++ o.interrupts.map (·.context) ++ o.ioPorts.map (·.context) ++ o.ioMemory.map (·.context)
    ++ o.pciDevices.map (·.context) ++ o.deviceTrees.map (·.context)

namespace KernelPolicy

/-- The policy authorizes the context. -/
structure Authorizes (k : KernelPolicy) (c : Context) : Prop where
  role : ∃ name u, k.users.find? name = some u ∧ u.value = c.user ∧ 0 < c.role ∧ c.role - 1 ∈ u.roles
  type : ∃ name r, k.roles.find? name = some r ∧ r.value = c.role ∧ 0 < c.type ∧ c.type - 1 ∈ r.types
  range : k.mls = true → c.range.high.dominates c.range.low = true

/-- The contexts of all labels: those of the object lists, and those of filesystems that
store no labels. -/
def labelContexts (k : KernelPolicy) : List Context :=
  k.objects.labelContexts ++ k.genfs.flatMap fun g => g.entries.map (·.context)

end KernelPolicy

namespace Lowering

variable {l : Lowering} {k : KernelPolicy}

/-! ### Bits of roles and types -/

/-- The bits of some declarations have the value of each, less one. -/
theorem mem_bits_iff {n : Numbering} {ids : List Id} {bit : Nat} :
    bit ∈ BitSet.ofList (ids.filterMap fun id => (n.value? id).map (· - 1)) ↔
      ∃ id ∈ ids, n.value? id = some (bit + 1) := by
  rw [BitSet.mem_ofList, List.mem_filterMap]
  refine exists_congr fun id => and_congr_right fun _ => ?_
  rw [Option.map_eq_some_iff]
  constructor
  · rintro ⟨v, hv, rfl⟩
    rw [hv, Nat.sub_add_cancel (Numbering.value?_pos hv)]
  · exact fun hv => ⟨bit + 1, hv, rfl⟩

theorem mem_valueBits {n : Numbering} {ids : List Id} {id : Id} {v : Nat} (hv : n.value? id = some v) :
    v - 1 ∈ BitSet.ofList (ids.filterMap fun id => (n.value? id).map (· - 1)) ↔ id ∈ ids := by
  rw [mem_bits_iff, Nat.sub_add_cancel (Numbering.value?_pos hv)]
  constructor
  · rintro ⟨other, listed, same⟩
    exact Numbering.value?_injective same hv ▸ listed
  · exact fun listed => ⟨id, listed, hv⟩

theorem mem_roleBits (evaluated : l.db.Evaluated) {user role : Id} {v : Nat}
    (hv : l.roles.value? role = some v) :
    v - 1 ∈ l.roleBits (l.db.userRoles.getD user ∅) ↔ role ∈ l.db.userRoles.getD user ∅ :=
  (mem_valueBits hv).trans (BitSet.mem_toList (evaluated.within_userRoles user).wellFormed)

theorem mem_typeBits (evaluated : l.db.Evaluated) {role type : Id} {v : Nat}
    (hv : l.types.value? type = some v) :
    v - 1 ∈ l.typeBits (l.db.roleTypes.getD role ∅) ↔ type ∈ l.db.roleTypes.getD role ∅ := by
  have within := evaluated.within_roleTypes role
  refine (mem_valueBits hv).trans ?_
  rw [List.mem_filter, BitSet.mem_toList within.wellFormed]
  exact and_iff_left_of_imp fun member =>
    EvaluatedDatabase.mem_concretes_types.mp (within.inside type member)

/-! ### Symbols of roles and users -/

theorem of_mem_numbered {α : Type} {n : Numbering} {r : Registry α} {id : Id} {v : Nat} {d : Declared α}
    (h : (v, id, d) ∈ numbered n r) : n.id? v = some id ∧ r.get? id = some d := by
  obtain ⟨⟨id', i⟩, listed, heq⟩ := List.mem_filterMap.mp h
  obtain ⟨d', hd', heq⟩ := Option.map_eq_some_iff.mp heq
  cases heq
  exact ⟨List.mem_zipIdx_iff_getElem?.mp listed, hd'⟩

theorem mem_numbered_iff {α : Type} {n : Numbering} {r : Registry α} (nodup : n.ids.Nodup) {id : Id} {v : Nat}
    {d : Declared α} : (v, id, d) ∈ numbered n r ↔ n.value? id = some v ∧ r.get? id = some d := by
  constructor
  · intro h
    obtain ⟨placed, declared⟩ := of_mem_numbered h
    exact ⟨Numbering.value?_of_id? nodup placed, declared⟩
  · exact fun ⟨placed, declared⟩ => mem_numbered placed declared

/-- The role with a name has the value and the types of a declaration of that name. -/
theorem Built.role_named_iff (built : l.Built k) (numbered : l.Numbered) {n : String} {p : Nat → BitSet → Prop} :
    (∃ r, k.roles.find? n = some r ∧ p r.value r.types) ↔
      ∃ id v, l.db.roles.Named id n ∧ l.roles.value? id = some v ∧
        p v (l.typeBits (l.db.roleTypes.getD id ∅)) := by
  have found := fun {d} => SymbolTable.find?_ofList (n := n) (d := d) built.roles
  have nodup : l.roles.ids.Nodup := numbered.roles ▸ Numbering.nodup_ofRegistry _ _
  constructor
  · rintro ⟨r, h, hp⟩
    obtain ⟨⟨v, id, d⟩, listed, heq⟩ := List.mem_map.mp (found.mp h)
    cases heq
    obtain ⟨placed, declared⟩ := (mem_numbered_iff nodup).mp listed
    exact ⟨id, v, ⟨d, declared, rfl⟩, placed, hp⟩
  · rintro ⟨id, v, ⟨d, declared, rfl⟩, placed, hp⟩
    have listed := (mem_numbered_iff nodup).mpr ⟨placed, declared⟩
    exact ⟨_, found.mpr (List.mem_map_of_mem listed), hp⟩

/-- The user with a name has the value and the roles of a declaration of that name. -/
theorem Built.user_named_iff (built : l.Built k) (numbered : l.Numbered) {n : String} {p : Nat → BitSet → Prop} :
    (∃ u, k.users.find? n = some u ∧ p u.value u.roles) ↔
      ∃ id v, l.db.users.Named id n ∧ l.users.value? id = some v ∧
        p v (l.roleBits (l.db.userRoles.getD id ∅)) := by
  obtain ⟨symbols, hsymbols, run⟩ := bind_eq_ok.mp built.users
  have found := fun {d} => SymbolTable.find?_ofList (n := n) (d := d) (mapError_eq_ok.mp run)
  have nodup : l.users.ids.Nodup := numbered.users ▸ Numbering.nodup_ofRegistry _ _
  constructor
  · rintro ⟨u, h, hp⟩
    obtain ⟨⟨v, id, d⟩, listed, hsymbol⟩ := mem_of_mapM hsymbols (found.mp h)
    obtain ⟨rfl, rfl, hroles, _⟩ := userSymbol_spec hsymbol
    obtain ⟨placed, declared⟩ := (mem_numbered_iff nodup).mp listed
    exact ⟨id, u.value, ⟨d, declared, rfl⟩, placed, hroles ▸ hp⟩
  · rintro ⟨id, v, ⟨d, declared, rfl⟩, placed, hp⟩
    have listed := (mem_numbered_iff nodup).mpr ⟨placed, declared⟩
    obtain ⟨⟨name, u⟩, hmem, hsymbol⟩ := exists_of_mapM hsymbols listed
    obtain ⟨rfl, rfl, hroles, _⟩ := userSymbol_spec hsymbol
    exact ⟨u, found.mpr hmem, hroles ▸ hp⟩

/-- The role with a value has the types of its declaration. -/
theorem Built.role_iff (built : l.Built k) (numbered : l.Numbered) {role : Id} {v : Nat}
    (hv : l.roles.value? role = some v) {p : BitSet → Prop} :
    (∃ name r, k.roles.find? name = some r ∧ r.value = v ∧ p r.types) ↔
      p (l.typeBits (l.db.roleTypes.getD role ∅)) := by
  have named := fun name => built.role_named_iff numbered (n := name) (p := fun w types => w = v ∧ p types)
  constructor
  · rintro ⟨name, h⟩
    obtain ⟨id, _, _, placed, rfl, hp⟩ := (named name).mp h
    exact Numbering.value?_injective placed hv ▸ hp
  · intro hp
    obtain ⟨d, hd⟩ := Numbering.exists_get? (numbered.roles ▸ hv)
    exact ⟨d.name, (named _).mpr ⟨role, v, ⟨d, hd, rfl⟩, hv, rfl, hp⟩⟩

/-- The user with a value has the roles of its declaration. -/
theorem Built.user_iff (built : l.Built k) (numbered : l.Numbered) {user : Id} {v : Nat}
    (hv : l.users.value? user = some v) {p : BitSet → Prop} :
    (∃ name u, k.users.find? name = some u ∧ u.value = v ∧ p u.roles) ↔
      p (l.roleBits (l.db.userRoles.getD user ∅)) := by
  have named := fun name => built.user_named_iff numbered (n := name) (p := fun w roles => w = v ∧ p roles)
  constructor
  · rintro ⟨name, h⟩
    obtain ⟨id, _, _, placed, rfl, hp⟩ := (named name).mp h
    exact Numbering.value?_injective placed hv ▸ hp
  · intro hp
    obtain ⟨d, hd⟩ := Numbering.exists_get? (numbered.users ▸ hv)
    exact ⟨d.name, (named _).mpr ⟨user, v, ⟨d, hd, rfl⟩, hv, rfl, hp⟩⟩

/-! ### One context -/

theorem eq_some_of_known {ε α : Type} {o : Option α} {e : ε} {a : α}
    (h : (match o with
      | some a => Except.ok a
      | none => .error e) = .ok a) : o = some a := by
  cases o with
  | none => cases h
  | some b =>
    cases h
    rfl

/-- What a context in kernel values is made of. -/
theorem context_ok {location : Location} {context : ContextArg Id} {c : Context}
    (h : l.context location context = .ok c) :
    ∃ spec, l.db.contextSpec? context = some spec ∧ l.users.value? spec.user = some c.user ∧
      l.roles.value? spec.role = some c.role ∧ l.typeValue? spec.type = some c.type ∧
      l.evalRange spec.range = .ok c.range := by
  rw [Lowering.context] at h
  obtain ⟨spec, hspec, h⟩ := bind_eq_ok.mp h
  obtain ⟨user, huser, h⟩ := bind_eq_ok.mp h
  obtain ⟨role, hrole, h⟩ := bind_eq_ok.mp h
  obtain ⟨type, htype, h⟩ := bind_eq_ok.mp h
  have hspec := eq_some_of_known hspec
  have huser := eq_some_of_known huser
  have hrole := eq_some_of_known hrole
  have htype := eq_some_of_known htype
  cases hrange : l.evalRange spec.range with
  | error fault =>
    simp only [hrange] at h
    cases h
  | ok range =>
    simp only [hrange] at h
    cases h
    exact ⟨spec, hspec, huser, hrole, htype, hrange⟩

/-- Sensitivities have values in their order. -/
theorem level_le_iff (numbered : l.Numbered) (placed : l.db.Placed) {a b : LevelValue}
    (ha : l.db.IsSensitivity a.sensitivity) (hb : l.db.IsSensitivity b.sensitivity) :
    (l.level a).sens ≤ (l.level b).sens ↔ l.db.sensitivityLe a.sensitivity b.sensitivity = true := by
  have value : ∀ id, l.db.IsSensitivity id → ∃ i, l.db.sensitivityPosition? id = some i ∧
      l.sensitivities.value? id = some (i + 1) := by
    intro id sensitivity
    rw [numbered.sensitivities]
    obtain ⟨v, hv⟩ := Numbering.exists_value? (n := ⟨l.db.orders.sensitivities⟩)
      (placed.sensitivities id sensitivity)
    obtain ⟨i, hi, rfl⟩ := Numbering.value?_eq_some.mp hv
    exact ⟨i, hi, hv⟩
  obtain ⟨i, hi, hvalue⟩ := value _ ha
  obtain ⟨j, hj, hvalue'⟩ := value _ hb
  simp [level, EvaluatedDatabase.sensitivityLe, hi, hj, hvalue, hvalue']

/-- A range in kernel values is in order when the range of the policy is. -/
theorem dominates_iff (numbered : l.Numbered) (passed : l.db.Passed) {range : RangeArg Id}
    (fits : l.db.RangeFits range) {r : LevelRange} (h : l.evalRange range = .ok r) :
    (l.settings.mls = true → r.high.dominates r.low = true) ↔
      (l.settings.mls = true → l.db.Ascends range) := by
  refine imp_congr_right fun mls => ?_
  rw [Lowering.evalRange, if_pos mls] at h
  obtain ⟨⟨low, high⟩, hlevels, rfl⟩ := map_eq_ok.mp h
  obtain ⟨hlow, hhigh⟩ := EvaluatedDatabase.isSensitivity_of_evalRange passed.resolved fits hlevels
  have order := level_le_iff numbered passed.placed hlow hhigh
  rw [EvaluatedDatabase.Ascends, hlevels]
  constructor
  · intro dominates
    obtain ⟨le, covers⟩ := Bool.and_eq_true_iff.mp dominates
    exact ⟨low, high, rfl, order.mp (of_decide_eq_true le), covers⟩
  · rintro ⟨_, _, heq, le, covers⟩
    cases heq
    exact Bool.and_eq_true_iff.mpr ⟨decide_eq_true (order.mpr le), covers⟩

/-- The policy authorizes a context when its source permits it. -/
theorem Built.authorizes_iff (built : l.Built k) (numbered : l.Numbered) (passed : l.db.Passed)
    {location : Location} {context : ContextArg Id} (fits : l.db.ContextFits context) {c : Context}
    (h : l.context location context = .ok c) :
    ∃ spec, l.db.contextSpec? context = some spec ∧
      (k.Authorizes c ↔ l.db.Permits l.settings.mls spec) := by
  obtain ⟨spec, hspec, huser, hrole, htype, hrange⟩ := context_ok h
  obtain ⟨⟨t, ht, kind⟩, rangeFits⟩ := passed.resolved.context_fits fits hspec
  have concrete : l.db.IsConcrete spec.type := Registry.test_iff.mpr ⟨t, ht, by simp [kind]⟩
  rw [typeValue?_concrete concrete] at htype
  have user := built.user_iff numbered huser (p := fun roles => 0 < c.role ∧ c.role - 1 ∈ roles)
  have role := built.role_iff numbered hrole (p := fun types => 0 < c.type ∧ c.type - 1 ∈ types)
  rw [mem_roleBits passed.evaluated hrole] at user
  rw [mem_typeBits passed.evaluated htype] at role
  have range := dominates_iff numbered passed rangeFits hrange
  refine ⟨spec, hspec, ?_⟩
  constructor
  · intro authorized
    refine ⟨(user.mp authorized.role).2, (role.mp authorized.type).2, ?_⟩
    exact range.mp (built.mls ▸ authorized.range)
  · intro permits
    have hasRole := user.mpr ⟨Numbering.value?_pos hrole, permits.role⟩
    have hasType := role.mpr ⟨Numbering.value?_pos htype, permits.type⟩
    refine ⟨hasRole, hasType, ?_⟩
    exact built.mls ▸ range.mpr permits.range

/-! ### All contexts -/

/-- The context is that of the argument, in kernel values. -/
def LowersContext (l : Lowering) (context : ContextArg Id) (c : Context) : Prop :=
  ∃ location, l.context location context = .ok c

end Lowering

/-- The labels whose kinds the target has. -/
def Labels.usedBy (labels : Labels) : Target → Labels
  | .selinux => { labels with
      interrupts := [], ioPorts := [], ioMemory := [], pciDevices := [], deviceTrees := [] }
  | .xen => { labels with
      ports := [], interfaces := [], nodes := [], filesystems := [], partitionKeys := [], endPorts := [] }

/-- The results are made of the labels, each of the selector and of a context related to the label's
own. -/
def MadeFrom {σ β : Type} (q : ContextArg Id → Context → Prop) (labels : List (Label σ (ContextArg Id)))
    (make : σ → Context → β) (results : List β) : Prop :=
  List.Forall₂ (fun x b => ∃ c, q x.context c ∧ make x.selector c = b) labels results

/-- The object contexts are made from the labels in this way. -/
structure ObjectContexts.From (q : ContextArg Id → Context → Prop) (labels : Labels) (o : ObjectContexts) :
    Prop where
  filesystems : o.filesystems = []
  ports : MadeFrom q labels.ports (fun p c => ⟨p.protocol, p.low, p.high, c⟩) o.ports
  interfaces : List.Forall₂ (fun x b => x.selector = b.name ∧ q x.context.1 b.interface ∧ q x.context.2 b.packet)
    labels.interfaces o.interfaces
  nodes : ∃ all, MadeFrom q labels.nodes (fun n c => ⟨n.address.octets, n.mask.octets, c⟩) all ∧
    o.nodes = all.filter (·.address.length == 4) ∧ o.nodes6 = all.filter (·.address.length != 4)
  filesystemUses : MadeFrom q labels.filesystems (fun f c => ⟨f.behavior, f.filesystem, c⟩) o.filesystemUses
  partitionKeys : MadeFrom q labels.partitionKeys (fun k c => ⟨k.subnet, k.low, k.high, c⟩) o.partitionKeys
  endPorts : MadeFrom q labels.endPorts (fun p c => ⟨p.device, p.port, c⟩) o.endPorts
  interrupts : MadeFrom q labels.interrupts (fun i c => ⟨i, c⟩) o.interrupts
  ioPorts : MadeFrom q labels.ioPorts (fun r c => ⟨r.low, r.high, c⟩) o.ioPorts
  ioMemory : MadeFrom q labels.ioMemory (fun r c => ⟨r.low, r.high, c⟩) o.ioMemory
  pciDevices : MadeFrom q labels.pciDevices (fun d c => ⟨d, c⟩) o.pciDevices
  deviceTrees : MadeFrom q labels.deviceTrees (fun p c => ⟨p, c⟩) o.deviceTrees

/-- The entries of a filesystem, each with its filesystem. -/
def Genfs.labels (g : Genfs) : List (String × GenfsEntry) :=
  g.entries.map (g.filesystem, ·)

section MadeFrom

variable {p : ContextArg Id → Prop} {q r : ContextArg Id → Context → Prop}

theorem MadeFrom.imp {σ β : Type} {labels : List (Label σ (ContextArg Id))} {make : σ → Context → β}
    {results : List β} (made : MadeFrom q labels make results) (all : ∀ x ∈ labels, p x.context)
    (weaker : ∀ a c, p a → q a c → r a c) : MadeFrom r labels make results := by
  refine ((List.forall₂_and_left _ _).mpr ⟨all, made⟩).imp ?_
  rintro x b ⟨hp, c, hc, same⟩
  exact ⟨c, weaker x.context c hp hc, same⟩

theorem MadeFrom.context {σ β : Type} {labels : List (Label σ (ContextArg Id))} {make : σ → Context → β}
    {results : List β} (made : MadeFrom q labels make results) (context : β → Context)
    (same : ∀ s c, context (make s c) = c) : ∀ b ∈ results, ∃ a, q a (context b) := by
  intro b hb
  obtain ⟨x, _, c, hc, rfl⟩ := exists_left_of_forall₂ made hb
  exact ⟨x.context, (same x.selector c).symm ▸ hc⟩

theorem Labels.AllContexts.usedBy {labels : Labels} (all : labels.AllContexts p) (target : Target) :
    (labels.usedBy target).AllContexts p := by
  cases target with
  | selinux =>
    exact { all with
      interrupts := List.forall_mem_nil _
      ioPorts := List.forall_mem_nil _
      ioMemory := List.forall_mem_nil _
      pciDevices := List.forall_mem_nil _
      deviceTrees := List.forall_mem_nil _ }
  | xen =>
    exact { all with
      ports := List.forall_mem_nil _
      interfaces := List.forall_mem_nil _
      nodes := List.forall_mem_nil _
      filesystems := List.forall_mem_nil _
      partitionKeys := List.forall_mem_nil _
      endPorts := List.forall_mem_nil _ }

theorem ObjectContexts.From.imp {labels : Labels} {o : ObjectContexts} (made : o.From q labels)
    (all : labels.AllContexts p) (weaker : ∀ a c, p a → q a c → r a c) : o.From r labels where
  filesystems := made.filesystems
  ports := made.ports.imp all.ports weaker
  interfaces := by
    refine ((List.forall₂_and_left _ _).mpr ⟨all.interfaces, made.interfaces⟩).imp ?_
    rintro x b ⟨⟨first, second⟩, name, interface, packet⟩
    exact ⟨name, weaker _ _ first interface, weaker _ _ second packet⟩
  nodes := by
    obtain ⟨nodes, made, parts⟩ := made.nodes
    exact ⟨nodes, made.imp all.nodes weaker, parts⟩
  filesystemUses := made.filesystemUses.imp all.filesystems weaker
  partitionKeys := made.partitionKeys.imp all.partitionKeys weaker
  endPorts := made.endPorts.imp all.endPorts weaker
  interrupts := made.interrupts.imp all.interrupts weaker
  ioPorts := made.ioPorts.imp all.ioPorts weaker
  ioMemory := made.ioMemory.imp all.ioMemory weaker
  pciDevices := made.pciDevices.imp all.pciDevices weaker
  deviceTrees := made.deviceTrees.imp all.deviceTrees weaker

theorem ObjectContexts.From.labelContexts {labels : Labels} {o : ObjectContexts} (made : o.From q labels) :
    ∀ c ∈ o.labelContexts, ∃ a, q a c := by
  have nodes : ∀ b ∈ o.nodes ++ o.nodes6, ∃ a, q a b.context := by
    obtain ⟨all, made, nodes, nodes6⟩ := made.nodes
    intro b hb
    rw [nodes, nodes6] at hb
    refine made.context (·.context) (fun _ _ => rfl) b ?_
    exact (List.mem_append.mp hb).elim List.mem_of_mem_filter List.mem_of_mem_filter
  simp only [ObjectContexts.labelContexts, made.filesystems, List.forall_mem_append, List.forall_mem_map,
    List.forall_mem_flatMap, List.forall_mem_cons, List.not_mem_nil, false_imp_iff, implies_true,
    true_and, and_true] at nodes ⊢
  have interfaces : ∀ b ∈ o.interfaces, (∃ a, q a b.interface) ∧ ∃ a, q a b.packet := by
    intro b hb
    obtain ⟨x, _, _, interface, packet⟩ := exists_left_of_forall₂ made.interfaces hb
    exact ⟨⟨_, interface⟩, ⟨_, packet⟩⟩
  refine ⟨⟨⟨⟨⟨⟨⟨⟨⟨⟨⟨?_, interfaces⟩, nodes.1⟩, ?_⟩, nodes.2⟩, ?_⟩, ?_⟩, ?_⟩, ?_⟩, ?_⟩, ?_⟩, ?_⟩
  · exact made.ports.context _ fun _ _ => rfl
  · exact made.filesystemUses.context _ fun _ _ => rfl
  · exact made.partitionKeys.context _ fun _ _ => rfl
  · exact made.endPorts.context _ fun _ _ => rfl
  · exact made.interrupts.context _ fun _ _ => rfl
  · exact made.ioPorts.context _ fun _ _ => rfl
  · exact made.ioMemory.context _ fun _ _ => rfl
  · exact made.pciDevices.context _ fun _ _ => rfl
  · exact made.deviceTrees.context _ fun _ _ => rfl

end MadeFrom

namespace Lowering

variable {l : Lowering} {k : KernelPolicy}

theorem madeFrom_labeled {σ β : Type} {make : σ → Context → β} {labels : List (Label σ (ContextArg Id))}
    {results : List β} (run : l.labeled make labels = .ok results) : MadeFrom l.LowersContext labels make results := by
  refine (forall₂_of_mapM run).imp fun x b h => ?_
  obtain ⟨c, hc, h⟩ := bind_eq_ok.mp h
  cases h
  exact ⟨c, ⟨x.location, hc⟩, rfl⟩

theorem interfaces_from {results : List InterfaceContext} (run : l.interfaces = .ok results) :
    List.Forall₂ (fun x b => x.selector = b.name ∧ l.LowersContext x.context.1 b.interface ∧
      l.LowersContext x.context.2 b.packet) l.db.labels.interfaces results := by
  refine (forall₂_of_mapM run).imp fun x b h => ?_
  obtain ⟨interface, hinterface, h⟩ := bind_eq_ok.mp h
  obtain ⟨packet, hpacket, h⟩ := bind_eq_ok.mp h
  cases h
  exact ⟨rfl, ⟨x.location, hinterface⟩, ⟨x.location, hpacket⟩⟩

theorem madeFrom_nodes {results : List NodeContext} (run : l.nodes = .ok results) :
    MadeFrom l.LowersContext l.db.labels.nodes (fun n c => ⟨n.address.octets, n.mask.octets, c⟩) results := by
  refine (forall₂_of_mapM run).imp fun x b h => ?_
  obtain ⟨c, hc, h⟩ := bind_eq_ok.mp h
  obtain ⟨_, h⟩ := EvaluatedDatabase.guard_eq_ok h
  cases h
  exact ⟨c, ⟨x.location, hc⟩, rfl⟩

theorem selinuxObjects_from {sids : List InitialSid} {o : ObjectContexts}
    (run : (l.selinuxObjects sids).Yields o) :
    o.sids = sids ∧ o.From l.LowersContext (l.db.labels.usedBy .selinux) := by
  obtain ⟨ports, hports, run⟩ := Report.yields_bind run
  obtain ⟨interfaces, hinterfaces, run⟩ := Report.yields_bind run
  obtain ⟨nodes, hnodes, run⟩ := Report.yields_bind run
  obtain ⟨uses, huses, run⟩ := Report.yields_bind run
  obtain ⟨keys, hkeys, run⟩ := Report.yields_bind run
  obtain ⟨endPorts, hendPorts, run⟩ := Report.yields_bind run
  obtain ⟨_, _, run⟩ := Report.yields_bind run
  obtain ⟨_, _, run⟩ := Report.yields_bind run
  obtain ⟨_, _, run⟩ := Report.yields_bind run
  obtain ⟨_, _, run⟩ := Report.yields_bind run
  obtain ⟨_, _, run⟩ := Report.yields_bind run
  cases Report.yields_pure run
  exact ⟨rfl, {
    filesystems := rfl
    ports := madeFrom_labeled (Report.yields_lift hports)
    interfaces := interfaces_from (Report.yields_lift hinterfaces)
    nodes := ⟨nodes, madeFrom_nodes (Report.yields_lift hnodes), rfl, rfl⟩
    filesystemUses := madeFrom_labeled (Report.yields_lift huses)
    partitionKeys := madeFrom_labeled (Report.yields_lift hkeys)
    endPorts := madeFrom_labeled (Report.yields_lift hendPorts)
    interrupts := .nil
    ioPorts := .nil
    ioMemory := .nil
    pciDevices := .nil
    deviceTrees := .nil }⟩

theorem xenObjects_from {sids : List InitialSid} {o : ObjectContexts}
    (run : (l.xenObjects sids).Yields o) : o.sids = sids ∧ o.From l.LowersContext (l.db.labels.usedBy .xen) := by
  obtain ⟨interrupts, hinterrupts, run⟩ := Report.yields_bind run
  obtain ⟨ioPorts, hioPorts, run⟩ := Report.yields_bind run
  obtain ⟨ioMemory, hioMemory, run⟩ := Report.yields_bind run
  obtain ⟨pciDevices, hpciDevices, run⟩ := Report.yields_bind run
  obtain ⟨deviceTrees, hdeviceTrees, run⟩ := Report.yields_bind run
  obtain ⟨_, _, run⟩ := Report.yields_bind run
  obtain ⟨_, _, run⟩ := Report.yields_bind run
  obtain ⟨_, _, run⟩ := Report.yields_bind run
  obtain ⟨_, _, run⟩ := Report.yields_bind run
  obtain ⟨_, _, run⟩ := Report.yields_bind run
  obtain ⟨_, _, run⟩ := Report.yields_bind run
  cases Report.yields_pure run
  exact ⟨rfl, {
    filesystems := rfl
    ports := .nil
    interfaces := .nil
    nodes := ⟨[], .nil, rfl, rfl⟩
    filesystemUses := .nil
    partitionKeys := .nil
    endPorts := .nil
    interrupts := madeFrom_labeled (Report.yields_lift hinterrupts)
    ioPorts := madeFrom_labeled (Report.yields_lift hioPorts)
    ioMemory := madeFrom_labeled (Report.yields_lift hioMemory)
    pciDevices := madeFrom_labeled (Report.yields_lift hpciDevices)
    deviceTrees := madeFrom_labeled (Report.yields_lift hdeviceTrees) }⟩

/-- The object lists are made from the labels that the target uses. -/
theorem objects_from {o : ObjectContexts} (run : l.objects.Yields o) :
    l.initialSids = .ok o.sids ∧ o.From l.LowersContext (l.db.labels.usedBy l.options.target) := by
  obtain ⟨sids, hsids, run⟩ := Report.yields_bind run
  have hsids := Report.yields_lift hsids
  split at run
  · rename_i target
    obtain ⟨rfl, made⟩ := selinuxObjects_from run
    exact ⟨hsids, target ▸ made⟩
  · rename_i target
    obtain ⟨rfl, made⟩ := xenObjects_from run
    exact ⟨hsids, target ▸ made⟩

/-- An entry comes last, whichever filesystem it goes to. -/
theorem labels_addGenfs (all : List Genfs) (filesystem : String) (entry : GenfsEntry) :
    (addGenfs all filesystem entry).flatMap Genfs.labels = all.flatMap Genfs.labels ++ [(filesystem, entry)] := by
  fun_induction addGenfs all filesystem entry with
  | case1 => rfl
  | case2 => simp [Genfs.labels]
  | case3 => simp [Genfs.labels]
  | case4 filesystem entry first rest _ ih => rw [List.flatMap_cons, ih, List.flatMap_cons, List.append_assoc]

theorem labels_foldl_addGenfs (items : List (String × GenfsEntry)) (all : List Genfs) :
    (items.foldl (fun all (filesystem, entry) => addGenfs all filesystem entry) all).flatMap Genfs.labels =
      all.flatMap Genfs.labels ++ items := by
  induction items generalizing all with
  | nil => exact (List.append_nil _).symm
  | cons item rest ih =>
    rw [List.foldl_cons, ih, labels_addGenfs, List.append_assoc]
    rfl

theorem genfs_from {genfs : List Genfs} (run : l.genfs = .ok genfs) :
    MadeFrom l.LowersContext l.db.labels.genfs (fun s c => (s.filesystem, ⟨s.path, 0, c⟩))
      (genfs.flatMap Genfs.labels) := by
  obtain ⟨items, hitems, run⟩ := bind_eq_ok.mp run
  cases run
  rw [labels_foldl_addGenfs]
  exact madeFrom_labeled hitems

/-- An initial SID has the context of its declaration. -/
theorem initialSids_come {sids : List InitialSid} (run : l.initialSids = .ok sids) :
    ∀ sid ∈ sids, ∃ id location context, l.db.sids.value? id = some (some context) ∧
      l.db.sids.nameOf id = sid.name ∧ l.context location context = .ok sid.context := by
  intro sid hsid
  obtain ⟨⟨n, d, context⟩, listed, h⟩ := mem_of_mapM run hsid
  obtain ⟨c, hc, h⟩ := bind_eq_ok.mp h
  cases h
  obtain ⟨⟨id, i⟩, _, found⟩ := List.mem_filterMap.mp listed
  obtain ⟨d', hd, found⟩ := Option.bind_eq_some_iff.mp found
  obtain ⟨context', hcontext, found⟩ := Option.bind_eq_some_iff.mp found
  cases found
  refine ⟨id, d.location, context, ?_, ?_, hc⟩
  · exact Registry.value?_eq_some.mpr ⟨d, hd, hcontext⟩
  · simp [Registry.nameOf, hd]

/-- Every declaration with a context has an initial SID. -/
theorem exists_initialSid {sids : List InitialSid} (run : l.initialSids = .ok sids) (placed : l.db.Placed)
    {id : Id} {context : ContextArg Id} (h : l.db.sids.value? id = some (some context)) :
    ∃ sid ∈ sids, ∃ location, l.db.sids.nameOf id = sid.name ∧ l.context location context = .ok sid.context := by
  obtain ⟨i, inside, rfl⟩ := List.mem_iff_getElem.mp (placed.sids id _ h)
  obtain ⟨d, hd, same⟩ := Registry.value?_eq_some.mp h
  have listed := List.mem_filterMap (f := fun place : Id × Nat => do
    let d ← l.db.sids.get? place.1
    let context ← d.value
    return (place.2 + 1, d, context)) (b := (i + 1, d, context)).mpr
      ⟨(l.db.orders.sids[i], i), List.mem_zipIdx_iff_getElem?.mpr (List.getElem?_eq_getElem inside), by
        simp [hd, same]⟩
  obtain ⟨sid, hsid, made⟩ := exists_of_mapM run listed
  obtain ⟨c, hc, made⟩ := bind_eq_ok.mp made
  cases made
  exact ⟨_, hsid, d.location, by simp [Registry.nameOf, hd], hc⟩

/-- A context that has passed the check is authorized. -/
theorem Built.authorizes_checked (built : l.Built k) (numbered : l.Numbered) (passed : l.db.Passed)
    {context : ContextArg Id} (fits : l.db.ContextFits context) (checked : l.db.Checked context)
    {location : Location} {c : Context} (h : l.context location context = .ok c) : k.Authorizes c := by
  obtain ⟨spec, hspec, iff⟩ := built.authorizes_iff numbered passed fits h
  obtain ⟨spec', hspec', _, _, _, hrange⟩ := context_ok h
  cases hspec.symm.trans hspec'
  refine iff.mpr (passed.permits_of_check (checked spec hspec) fun mls => ?_)
  rw [Lowering.evalRange, if_pos mls] at hrange
  obtain ⟨levels, hlevels, _⟩ := map_eq_ok.mp hrange
  exact ⟨levels, hlevels⟩

theorem Built.labels_authorized (built : l.Built k) (numbered : l.Numbered) (passed : l.db.Passed) :
    ∀ c ∈ k.labelContexts, k.Authorizes c := by
  have all : l.db.labels.AllContexts fun context =>
      l.db.ContextFits context ∧ l.db.Checked context :=
    passed.resolved.labels.and passed.labels_checked
  have authorized : ∀ context c, l.db.ContextFits context ∧ l.db.Checked context →
      l.LowersContext context c → k.Authorizes c := by
    rintro context c ⟨fits, checked⟩ ⟨location, h⟩
    exact built.authorizes_checked numbered passed fits checked h
  intro c hc
  rcases List.mem_append.mp hc with hc | hc
  · have made := (objects_from built.objects).2.imp (all.usedBy _) authorized
    obtain ⟨_, authorizes⟩ := made.labelContexts c hc
    exact authorizes
  · obtain ⟨g, hg, hc⟩ := List.mem_flatMap.mp hc
    obtain ⟨e, he, rfl⟩ := List.mem_map.mp hc
    have listed : (g.filesystem, e) ∈ k.genfs.flatMap Genfs.labels :=
      List.mem_flatMap.mpr ⟨g, hg, List.mem_map_of_mem he⟩
    obtain ⟨x, hx, c, lowered, heq⟩ := exists_left_of_forall₂ (genfs_from built.genfs) listed
    obtain ⟨_, rfl⟩ := Prod.mk.inj heq
    exact authorized x.context c (all.genfs x hx) lowered

/-- The context of an initial SID is authorized when it is named, or when the policy
permits what is written out. -/
theorem Built.sids_authorized (built : l.Built k) (numbered : l.Numbered) (passed : l.db.Passed) :
    ∀ sid ∈ k.objects.sids, ∃ id context, l.db.sids.value? id = some (some context) ∧
      l.db.sids.nameOf id = sid.name ∧
      (k.Authorizes sid.context ↔
        ∀ spec, context = .given spec → l.db.Permits l.settings.mls spec) := by
  obtain ⟨hsids, _⟩ := objects_from built.objects
  intro sid hsid
  obtain ⟨id, location, context, hvalue, hname, h⟩ := initialSids_come hsids sid hsid
  have fits := passed.resolved.sids id (some context) hvalue context rfl
  refine ⟨id, context, hvalue, hname, ?_⟩
  cases context with
  | named name =>
    refine iff_of_true ?_ fun _ heq => nomatch heq
    exact built.authorizes_checked numbered passed fits (fun spec => passed.checked_named) h
  | given spec =>
    obtain ⟨spec', hspec, iff⟩ := built.authorizes_iff numbered passed fits h
    cases hspec
    rw [iff]
    constructor
    · rintro permits _ heq
      cases heq
      exact permits
    · exact fun permits => permits spec rfl

end Lowering

namespace Compiler

variable {c : Compiler} {lowered : LoweredPolicy}

/-- A policy that is lowered has come through every stage. -/
theorem exists_stages (run : c.lower.Yields lowered) : ∃ statements resolved ordered,
    (c.tree.build c.options.qualifiedNames).Yields statements ∧
    (Database.resolve c.options.multipleDecls statements).Yields resolved ∧ resolved.order.Yields ordered ∧
    ordered.preVerify.Yields () ∧ (ordered.evaluate c.options.multipleDecls).Yields lowered.db ∧
    (lowered.db.verify c.options.overrides).Yields lowered.settings ∧
    (lowered.db.lower lowered.settings c.options.lowering).Yields lowered.kernel := by
  rw [lower] at run
  dsimp only at run
  split at run
  · obtain ⟨_, thrown, _⟩ := Report.yields_bind run
    exact absurd thrown Report.not_yields_throw
  · obtain ⟨_, _, run⟩ := Report.yields_bind run
    obtain ⟨statements, built, run⟩ := Report.yields_bind run
    obtain ⟨_, _, run⟩ := Report.yields_bind run
    obtain ⟨resolved, resolve, run⟩ := Report.yields_bind run
    obtain ⟨ordered, order, run⟩ := Report.yields_bind run
    obtain ⟨_, checked, run⟩ := Report.yields_bind run
    obtain ⟨_, _, run⟩ := Report.yields_bind run
    obtain ⟨db, evaluate, run⟩ := Report.yields_bind run
    obtain ⟨settings, verified, run⟩ := Report.yields_bind run
    obtain ⟨_, _, run⟩ := Report.yields_bind run
    obtain ⟨kernel, lower, run⟩ := Report.yields_bind run
    cases Report.yields_pure run
    exact ⟨statements, resolved, ordered, built, resolve, order, checked, evaluate, verified, lower⟩

/-- A compilation that succeeds has passed all stages. -/
theorem stages_of_lower (run : c.lower.Yields lowered) :
    lowered.db.Passed ∧ (lowered.db.lower lowered.settings c.options.lowering).Yields lowered.kernel := by
  obtain ⟨_, _, _, _, resolve, order, checked, evaluate, verified, lower⟩ := exists_stages run
  exact ⟨EvaluatedDatabase.passed_of_stages resolve order checked evaluate verified, lower⟩

/-- In a policy that compiles, the context of every label is authorized; that of an
initial SID is authorized exactly when it has a name, or is written out and permitted. -/
theorem stored_contexts_authorized (run : c.lower.outcome.1 = .ok lowered) :
    (∀ context ∈ lowered.kernel.labelContexts, lowered.kernel.Authorizes context) ∧
      ∀ sid ∈ lowered.kernel.objects.sids, ∃ id context,
        lowered.db.sids.value? id = some (some context) ∧ lowered.db.sids.nameOf id = sid.name ∧
        (lowered.kernel.Authorizes sid.context ↔
          ∀ spec, context = .given spec → lowered.db.Permits lowered.settings.mls spec) := by
  obtain ⟨passed, run⟩ := stages_of_lower (Report.yields_of_outcome run)
  have built := Lowering.built_of_policy run
  have numbered := Lowering.numbered_new lowered.db lowered.settings c.options.lowering
  exact ⟨built.labels_authorized numbered passed, built.sids_authorized numbered passed⟩

/-- A policy whose initial SID has a type that its role may not take. -/
def straySource : String :=
  "(class f (p))(classorder (f))(sid k)(sidorder (k))(sensitivity s)(sensitivityorder (s))" ++
    "(user u)(role r)(type a)(type b)(userrole u r)(roletype r a)(userlevel u (s))" ++
    "(userrange u ((s) (s)))(sidcontext k (u r b ((s) (s))))(allow a b (f (p)))"

/-- There is one initial SID, and its context is written out with a type that its role may
not take. -/
def isStray (lowered : LoweredPolicy) : Bool :=
  !lowered.kernel.objects.sids.isEmpty && lowered.db.sids.size == 1 &&
    match lowered.db.sids.value? 0 with
    | some (some (.given spec)) => !(lowered.db.roleTypes.getD spec.role ∅).has spec.type
    | _ => false

set_option maxRecDepth 10000 in
theorem straySource_compiles :
    (addSource {} "policy.cil" straySource).2.lower.outcome.1.toOption.any isStray = true := by
  decide +kernel

/-- A small policy compiles, and the context of its initial SID is not authorized. -/
theorem stray_context_stored : ∃ lowered sid,
    (addSource {} "policy.cil" straySource).2.lower.outcome.1 = .ok lowered ∧
      sid ∈ lowered.kernel.objects.sids ∧ ¬ lowered.kernel.Authorizes sid.context := by
  have compiles := straySource_compiles
  cases run : (addSource {} "policy.cil" straySource).2.lower.outcome.1 with
  | error d =>
    rw [run] at compiles
    cases compiles
  | ok lowered =>
    rw [run] at compiles
    have stray : isStray lowered = true := compiles
    simp only [isStray, Bool.and_eq_true, Bool.not_eq_true', beq_iff_eq] at stray
    obtain ⟨⟨stored, one⟩, wrong⟩ := stray
    obtain ⟨sid, hsid⟩ := List.exists_mem_of_ne_nil _ (by simpa using stored)
    obtain ⟨_, sids⟩ := stored_contexts_authorized run
    obtain ⟨id, context, hvalue, _, iff⟩ := sids sid hsid
    have first : id = 0 := Nat.lt_one_iff.mp (one ▸ Registry.lt_of_value? hvalue)
    subst first
    rw [hvalue] at wrong
    refine ⟨lowered, sid, rfl, hsid, fun authorized => ?_⟩
    cases context with
    | named name => cases wrong
    | given spec =>
      have member : (lowered.db.roleTypes.getD spec.role ∅).has spec.type = true :=
        (iff.mp authorized spec rfl).type
      exact absurd member (by simpa using wrong)

end Compiler

end CilPolicy
