import CilPolicy.Lowering.Rules
import CilPolicy.Proofs.Graph.Cycle
import CilPolicy.Proofs.Verification.Passed

/-!
# What references to class permissions stand for

A reference to class permissions stands for permissions of kernel classes, through
named sets and the permissions of maps. Where no permission expands into itself, the
expansion comes to exactly these, and it names each class once.
-/

namespace CilPolicy

/-! ### Words -/

theorem getLsbD_foldl_word {bits : List Nat} {word : BitVec 32} {p : Nat} (hp : p < 32) :
    (bits.foldl (fun word bit => word ||| (1#32 <<< bit)) word).getLsbD p = true ↔
      word.getLsbD p = true ∨ p ∈ bits := by
  induction bits generalizing word with
  | nil => simp
  | cons bit rest ih =>
    rw [List.foldl_cons, ih, List.mem_cons]
    simp only [BitVec.getLsbD_or, BitVec.getLsbD_shiftLeft, BitVec.getLsbD_one, Bool.or_eq_true,
      Bool.and_eq_true, Bool.not_eq_true', decide_eq_true_eq, decide_eq_false_iff_not]
    constructor
    · rintro ((h | h) | h)
      · exact Or.inl h
      · exact Or.inr (Or.inl (by omega))
      · exact Or.inr (Or.inr h)
    · rintro (h | h | h)
      · exact Or.inl (Or.inl h)
      · exact Or.inl (Or.inr (by omega))
      · exact Or.inr h

theorem getLsbD_permissionWord {bits : BitSet} (wf : bits.WellFormed) {p : Nat} (hp : p < 32) :
    (permissionWord bits).getLsbD p = true ↔ p ∈ bits := by
  rw [permissionWord, getLsbD_foldl_word hp, BitSet.mem_toList wf]
  simp

/-- The permission of the class is among those granted. -/
def Granted (grants : List ClassGrant) (cls : Id) (p : Nat) : Prop :=
  ∃ g ∈ grants, g.cls = cls ∧ g.word.getLsbD p = true

theorem granted_nil {cls : Id} {p : Nat} : ¬ Granted [] cls p := by
  rintro ⟨g, hg, _⟩
  cases hg

theorem granted_cons {g : ClassGrant} {grants : List ClassGrant} {cls : Id} {p : Nat} :
    Granted (g :: grants) cls p ↔ (g.cls = cls ∧ g.word.getLsbD p = true) ∨ Granted grants cls p := by
  simp [Granted]

theorem granted_flatMap {α : Type} {items : List α} {f : α → List ClassGrant} {cls : Id} {p : Nat} :
    Granted (items.flatMap f) cls p ↔ ∃ a ∈ items, Granted (f a) cls p := by
  constructor
  · rintro ⟨g, hg, h⟩
    obtain ⟨a, ha, hg⟩ := List.mem_flatMap.mp hg
    exact ⟨a, ha, g, hg, h⟩
  · rintro ⟨a, ha, g, hg, h⟩
    exact ⟨g, List.mem_flatMap.mpr ⟨a, ha, hg⟩, h⟩

theorem granted_addGrant {grant : ClassGrant} {grants : List ClassGrant} {cls : Id} {p : Nat} :
    Granted (addGrant grant grants) cls p ↔
      Granted grants cls p ∨ (grant.cls = cls ∧ grant.word.getLsbD p = true) := by
  induction grants with
  | nil => simp [addGrant, Granted]
  | cons g rest ih =>
    rw [addGrant]
    split
    · rename_i same
      rw [granted_cons, granted_cons, same]
      simp only [BitVec.getLsbD_or, Bool.or_eq_true]
      tauto
    · rw [granted_cons, granted_cons, ih, or_assoc]

theorem map_cls_addGrant (grant : ClassGrant) (grants : List ClassGrant) :
    (addGrant grant grants).map (·.cls) =
      if grant.cls ∈ grants.map (·.cls) then grants.map (·.cls)
      else grants.map (·.cls) ++ [grant.cls] := by
  induction grants with
  | nil => simp [addGrant]
  | cons g rest ih =>
    rw [addGrant]
    split
    · rename_i same
      simp [same]
    · rename_i other
      have hne : grant.cls ≠ g.cls := fun heq => other heq.symm
      rw [List.map_cons, ih, List.map_cons]
      simp only [List.mem_cons, hne, false_or]
      split <;> simp

theorem granted_foldl_addGrant {items grants : List ClassGrant} {cls : Id} {p : Nat} :
    Granted (items.foldl (fun all g => addGrant g all) grants) cls p ↔
      Granted grants cls p ∨ Granted items cls p := by
  induction items generalizing grants with
  | nil => simp [granted_nil]
  | cons g rest ih =>
    rw [List.foldl_cons, ih, granted_addGrant, granted_cons, or_assoc]

theorem nodup_foldl_addGrant {items grants : List ClassGrant} (nodup : (grants.map (·.cls)).Nodup) :
    ((items.foldl (fun all g => addGrant g all) grants).map (·.cls)).Nodup := by
  induction items generalizing grants with
  | nil => exact nodup
  | cons g rest ih =>
    refine ih ?_
    rw [map_cls_addGrant]
    split
    · exact nodup
    · rename_i new
      exact List.nodup_append.mpr ⟨nodup, by simp, by
        intro a ha b hb heq
        cases List.mem_singleton.mp hb
        exact new (heq ▸ ha)⟩

/-! ### What expressions can denote -/

theorem Operator.Denotes.bounded {whole : Nat → Prop} {op : Operator} {operands : List (Nat → Prop)}
    {n : Nat} (h : op.Denotes whole operands n) : whole n ∨ ∃ a ∈ operands, a n := by
  simp only [Operator.Denotes] at h
  split at h
  · exact Or.inl h
  · exact Or.inl h.1
  · exact Or.inr ⟨_, List.mem_cons_self, h.1⟩
  · rcases h with h | h
    · exact Or.inr ⟨_, List.mem_cons_self, h⟩
    · exact Or.inr ⟨_, List.mem_cons_of_mem _ List.mem_cons_self, h⟩
  · exact Or.inl h.2
  · exact Or.inr h

namespace Expr

mutual

/-- What an expression denotes is in the whole or among its items. -/
theorem Denotes.bounded {whole : Nat → Prop} {leaf : Id → Nat → Prop} {n : Nat} : (e : Expr Id) →
    e.Denotes whole leaf n → whole n ∨ ∃ id ∈ e.leaves, leaf id n
  | item id, h => Or.inr ⟨id, List.mem_singleton.mpr rfl, h⟩
  | list members, h => denotations_bounded members h
  | apply op operands, h => by
    rcases Operator.Denotes.bounded h with h | h
    · exact Or.inl h
    · exact denotations_bounded operands h

theorem denotations_bounded {whole : Nat → Prop} {leaf : Id → Nat → Prop} {n : Nat} :
    (es : List (Expr Id)) → (∃ a ∈ denotations whole leaf es, a n) →
    whole n ∨ ∃ id ∈ leavesAll es, leaf id n
  | [], h => by
    obtain ⟨a, ha, _⟩ := h
    cases ha
  | e :: es, h => by
    obtain ⟨a, ha, hn⟩ := h
    rcases List.mem_cons.mp ha with rfl | ha
    · rcases Denotes.bounded e hn with h | ⟨id, hid, h⟩
      · exact Or.inl h
      · exact Or.inr ⟨id, List.mem_append.mpr (Or.inl hid), h⟩
    · rcases denotations_bounded es ⟨a, ha, hn⟩ with h | ⟨id, hid, h⟩
      · exact Or.inl h
      · exact Or.inr ⟨id, List.mem_append.mpr (Or.inr hid), h⟩

end

end Expr

/-! ### References -/

namespace Database

/-- The permission is one of those that an expression over the permissions of a class
denotes. -/
def Selects (db : Database) (c : ClassInfo) (e : Expr Id) (p : Nat) : Prop :=
  e.Denotes (· < db.permissionCount c) (fun id n => n = id) p

/-- The reference stands for the permission of the kernel class: it names the permission
of the class, or it leads there through a permission of a map or through a named set. -/
inductive StandsFor (db : Database) : ClassPerms Id → Id → Nat → Prop where
  | own {cls : Id} {c : ClassInfo} {e : Expr Id} {p : Nat} (declared : db.classes.value? cls = some c)
      (kernel : c.isMap = false) (selected : db.Selects c e p) : StandsFor db (.given cls e) cls p
  | mapped {map cls : Id} {c : ClassInfo} {e : Expr Id} {permission p : Nat}
      {refs : List (ClassPerms Id)} {ref : ClassPerms Id} (declared : db.classes.value? map = some c)
      (isMap : c.isMap = true) (selected : db.Selects c e permission)
      (mapping : c.permissions.value? permission = some refs) (member : ref ∈ refs)
      (stands : StandsFor db ref cls p) : StandsFor db (.given map e) cls p
  | set {id cls : Id} {p : Nat} {refs : List (ClassPerms Id)} {ref : ClassPerms Id}
      (declared : db.classPermissions.value? id = some refs) (member : ref ∈ refs)
      (stands : StandsFor db ref cls p) : StandsFor db (.named id) cls p

variable {db : Database}

theorem mem_permissionBits {c : ClassInfo} {e : Expr Id} {p : Nat} :
    p ∈ db.permissionBits c e ↔ db.Selects c e p := by
  have rep := Expr.represents_evaluate (BitSet.wellFormed_below (db.permissionCount c))
    BitSet.wellFormed_singleton e
  simp only [BitSet.mem_below, BitSet.mem_singleton] at rep
  exact rep.2 p

theorem wellFormed_permissionBits (c : ClassInfo) (e : Expr Id) :
    (db.permissionBits c e).WellFormed :=
  (Expr.represents_evaluate (BitSet.wellFormed_below _) BitSet.wellFormed_singleton e).1

/-- What references stand for is a permission of a kernel class, if they fit. -/
theorem Resolved.standsFor_bounded (resolved : db.Resolved) {ref : ClassPerms Id} {cls : Id} {p : Nat}
    (fits : db.RefFits ref) (stands : db.StandsFor ref cls p) :
    ∃ c, db.classes.value? cls = some c ∧ c.isMap = false ∧ p < db.permissionCount c := by
  induction stands with
  | own declared kernel selected =>
    refine ⟨_, declared, kernel, ?_⟩
    rcases Expr.Denotes.bounded _ selected with h | ⟨_, hmem, rfl⟩
    · exact h
    · exact fits _ declared _ hmem
  | mapped declared _ _ mapping member _ ih =>
    exact ih (resolved.mappings _ _ declared _ _ mapping _ member)
  | set declared member _ ih => exact ih (resolved.sets _ _ declared _ member)

/-! ### Expansion -/

theorem mem_permissionTargets {ref : ClassPerms Id} {node : PermissionNode}
    (h : node ∈ db.permissionTargets ref) (used : db.permissionRefs node ≠ []) :
    node ∈ db.permissionNodes := by
  rw [permissionNodes]
  cases ref with
  | named id =>
    cases List.mem_singleton.mp h
    refine List.mem_append.mpr (Or.inl (List.mem_map.mpr ⟨id, List.mem_range.mpr ?_, rfl⟩))
    cases hvalue : db.classPermissions.value? id with
    | none =>
      rw [permissionRefs, hvalue] at used
      exact absurd rfl used
    | some refs => exact Registry.lt_of_value? hvalue
  | given cls e =>
    unfold permissionTargets at h
    dsimp only at h
    split at h
    · rename_i c hc
      split at h
      · rename_i isMap
        obtain ⟨p, _, rfl⟩ := List.mem_map.mp h
        obtain ⟨d, hd, rfl⟩ := Registry.value?_eq_some.mp hc
        refine List.mem_append.mpr (Or.inr (List.mem_flatMap.mpr ⟨(cls, d), ?_, ?_⟩))
        · exact List.mem_filter.mpr ⟨Registry.mem_indexed.mpr hd, isMap⟩
        · refine List.mem_map.mpr ⟨p, List.mem_range.mpr ?_, rfl⟩
          cases hvalue : d.value.permissions.value? p with
          | none =>
            simp only [permissionRefs, hc, Option.bind_some, hvalue] at used
            exact absurd rfl used
          | some refs => exact Registry.lt_of_value? hvalue
      · cases h
    · cases h

theorem closedUnder_permissionNext : Graph.ClosedUnder db.permissionNext db.permissionNodes := by
  intro node _ child hchild used
  obtain ⟨ref, _, htarget⟩ := List.mem_flatMap.mp hchild
  refine mem_permissionTargets htarget fun none => used ?_
  rw [permissionNext, none]
  rfl

/-- The fuel is enough for the reference and all that it leads to. -/
def Reaches (db : Database) (level : PermissionNode → Nat) (fuel : Nat) (ref : ClassPerms Id) : Prop :=
  0 < fuel ∧ ∀ node ∈ db.permissionTargets ref, node ∈ db.permissionNodes → level node + 1 < fuel

/-- What a node expands to is what its references stand for, where the fuel is enough
for these. -/
theorem granted_permissionRefs {level : PermissionNode → Nat}
    (down : ∀ node ∈ db.permissionNodes, ∀ child ∈ db.permissionNext node,
      child ∈ db.permissionNodes → level child < level node)
    {fuel : Nat} {cls : Id} {p : Nat}
    (ih : ∀ ref, db.Reaches level fuel ref →
      (Granted (db.leafGrants fuel ref) cls p ↔ db.StandsFor ref cls p))
    {ref : ClassPerms Id} (enough : db.Reaches level (fuel + 1) ref) :
    ∀ node ∈ db.permissionTargets ref,
      (Granted ((db.permissionRefs node).flatMap (db.leafGrants fuel)) cls p ↔
        ∃ inner ∈ db.permissionRefs node, db.StandsFor inner cls p) := by
  intro node target
  rw [granted_flatMap]
  refine exists_congr fun inner => and_congr_right fun hinner => ih inner ?_
  have listed := mem_permissionTargets target (List.ne_nil_of_mem hinner)
  have bound := enough.2 node target listed
  refine ⟨by omega, fun child hchild inside => ?_⟩
  have lower := down node listed child (List.mem_flatMap.mpr ⟨inner, hinner, hchild⟩) inside
  omega

/-- The references behind a permission of a map. -/
theorem mem_permissionRefs_mapped {map permission : Id} {c : ClassInfo}
    (declared : db.classes.value? map = some c) {ref : ClassPerms Id} :
    ref ∈ db.permissionRefs (.mapped map permission) ↔
      ∃ refs, c.permissions.value? permission = some refs ∧ ref ∈ refs := by
  simp only [permissionRefs, declared, Option.bind_some]
  cases c.permissions.value? permission with
  | none => simp
  | some refs => simp

theorem mem_permissionRefs_set {id : Id} {ref : ClassPerms Id} :
    ref ∈ db.permissionRefs (.set id) ↔
      ∃ refs, db.classPermissions.value? id = some refs ∧ ref ∈ refs := by
  rw [permissionRefs]
  cases db.classPermissions.value? id with
  | none => simp
  | some refs => simp

theorem mem_permissionTargets_map {map : Id} {c : ClassInfo} (declared : db.classes.value? map = some c)
    (isMap : c.isMap = true) {e : Expr Id} {node : PermissionNode} :
    node ∈ db.permissionTargets (.given map e) ↔
      ∃ permission, db.Selects c e permission ∧ .mapped map permission = node := by
  simp only [permissionTargets, declared, isMap, if_true, List.mem_map,
    BitSet.mem_toList (wellFormed_permissionBits c e), mem_permissionBits]

/-- The permissions of a map class are those that its selected permissions expand to. -/
theorem granted_map {map : Id} {c : ClassInfo} (declared : db.classes.value? map = some c)
    (isMap : c.isMap = true) {e : Expr Id} {fuel : Nat} {cls : Id} {p : Nat}
    (inner : ∀ node ∈ db.permissionTargets (.given map e),
      (Granted ((db.permissionRefs node).flatMap (db.leafGrants fuel)) cls p ↔
        ∃ inner ∈ db.permissionRefs node, db.StandsFor inner cls p)) :
    Granted ((db.permissionTargets (.given map e)).flatMap fun node =>
        (db.permissionRefs node).flatMap (db.leafGrants fuel)) cls p ↔
      db.StandsFor (.given map e) cls p := by
  rw [granted_flatMap]
  constructor
  · rintro ⟨node, hnode, granted⟩
    obtain ⟨ref, href, stands⟩ := (inner node hnode).mp granted
    obtain ⟨permission, selected, rfl⟩ := (mem_permissionTargets_map declared isMap).mp hnode
    obtain ⟨refs, mapping, member⟩ := (mem_permissionRefs_mapped declared).mp href
    exact .mapped declared isMap selected mapping member stands
  · intro h
    cases h with
    | own other kernel _ =>
      cases declared.symm.trans other
      exact absurd (isMap.symm.trans kernel) Bool.noConfusion
    | mapped other _ selected mapping member stands =>
      cases declared.symm.trans other
      have hnode := (mem_permissionTargets_map declared isMap).mpr ⟨_, selected, rfl⟩
      have href := (mem_permissionRefs_mapped declared).mpr ⟨_, mapping, member⟩
      exact ⟨_, hnode, (inner _ hnode).mpr ⟨_, href, stands⟩⟩

/-- The permissions of a kernel class are those that the reference selects. -/
theorem granted_own {cls' : Id} (noMap : ¬ db.classes.test cls' (·.isMap) = true) {e : Expr Id}
    {cls : Id} {p : Nat} (hp : p < 32) :
    Granted [⟨cls', permissionWord (db.permissionBitsOf cls' e)⟩] cls p ↔
      db.StandsFor (.given cls' e) cls p := by
  rw [granted_cons, or_iff_left granted_nil]
  cases declared : db.classes.value? cls' with
  | none =>
    simp only [permissionBitsOf, declared, getLsbD_permissionWord BitSet.wellFormed_empty hp]
    constructor
    · rintro ⟨_, h⟩
      exact absurd h (BitSet.not_mem_empty p)
    · intro h
      cases h with
      | own other => cases declared.symm.trans other
      | mapped other => cases declared.symm.trans other
  | some c =>
    have kernel : c.isMap = false := by
      simpa [Registry.test, declared] using noMap
    simp only [permissionBitsOf, declared, getLsbD_permissionWord (wellFormed_permissionBits c e) hp,
      mem_permissionBits]
    constructor
    · rintro ⟨rfl, selected⟩
      exact .own declared kernel selected
    · intro h
      cases h with
      | own other _ selected =>
        cases declared.symm.trans other
        exact ⟨rfl, selected⟩
      | mapped other isMap =>
        cases declared.symm.trans other
        exact absurd (isMap.symm.trans kernel) Bool.noConfusion

/-- With enough fuel the expansion comes to what the reference stands for. -/
theorem granted_leafGrants {level : PermissionNode → Nat}
    (down : ∀ node ∈ db.permissionNodes, ∀ child ∈ db.permissionNext node,
      child ∈ db.permissionNodes → level child < level node)
    {fuel : Nat} {ref : ClassPerms Id} (enough : db.Reaches level fuel ref) {cls : Id} {p : Nat}
    (hp : p < 32) : Granted (db.leafGrants fuel ref) cls p ↔ db.StandsFor ref cls p := by
  induction fuel generalizing ref with
  | zero => exact absurd enough.1 (Nat.lt_irrefl 0)
  | succ fuel ih =>
    have inner := granted_permissionRefs down (fun _ => ih) enough
    cases ref with
    | named id =>
      rw [leafGrants, inner (.set id) (List.mem_singleton.mpr rfl)]
      simp only [mem_permissionRefs_set]
      constructor
      · rintro ⟨ref, ⟨refs, declared, member⟩, stands⟩
        exact .set declared member stands
      · rintro (_ | _ | ⟨declared, member, stands⟩)
        exact ⟨_, ⟨_, declared, member⟩, stands⟩
    | given cls' e =>
      rw [leafGrants]
      split
      · rename_i tested
        obtain ⟨c, declared, isMap⟩ := Registry.test_iff.mp tested
        exact granted_map declared isMap inner
      · rename_i tested
        exact granted_own tested hp

/-- Where nothing expands into itself, the permissions granted by a reference are those
that it stands for. -/
theorem granted_grants (acyclic : Graph.findCycle db.permissionNodes db.permissionNext = none)
    {ref : ClassPerms Id} {cls : Id} {p : Nat} (hp : p < 32) :
    Granted (db.grants ref) cls p ↔ db.StandsFor ref cls p := by
  obtain ⟨level, bounded, down⟩ := Graph.exists_level_of_findCycle closedUnder_permissionNext acyclic
  have enough : db.Reaches level (db.permissionNodes.length + 1) ref :=
    ⟨Nat.succ_pos _, fun node _ listed => Nat.succ_lt_succ (bounded node listed)⟩
  rw [grants, granted_foldl_addGrant, granted_leafGrants down enough hp]
  exact or_iff_right granted_nil

/-- A reference grants each class once. -/
theorem nodup_grants (ref : ClassPerms Id) : ((db.grants ref).map (·.cls)).Nodup :=
  nodup_foldl_addGrant List.nodup_nil

end Database

end CilPolicy
