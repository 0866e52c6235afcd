import CilPolicy.Proofs.Kernel.FilenameMap
import CilPolicy.Proofs.Lowering.Step
import CilPolicy.Proofs.Lowering.TypeRules

/-!
# What rules say of transitions

A transition rule leads from triggers, which name what meets what, to one outcome. Attributes and
`self` stand for concrete entities there, so two rules may lead from one trigger to different
outcomes. Each of the four tables of transitions refuses such a rule, and keeps what all others
lead to.
-/

namespace CilPolicy

/-! ### Triggers and outcomes -/

/-- What a transition depends on. -/
inductive Trigger where
  | type (kind : TypeRuleKind) (source target cls : Id)
  | named (source target cls : Id) (name : String)
  | role (role type cls : Id)
  | range (source target cls : Id)

/-- The class of the objects that are concerned. -/
def Trigger.cls : Trigger → Id
  | type _ _ _ cls => cls
  | named _ _ cls _ => cls
  | role _ _ cls => cls
  | range _ _ cls => cls

/-- What a transition leads to: a type or a role, or a range of levels. -/
inductive Outcome where
  | entity (id : Id)
  | levels (range : LevelValue × LevelValue)

/-- The rule leads from the trigger to the outcome. Rules on ranges count in a policy with levels
only. -/
inductive EvaluatedDatabase.Leads (db : EvaluatedDatabase) (mls : Bool) : Rule → Trigger → Outcome → Prop
  | type {kind : TypeRuleKind} {source : Id} {target : RuleTarget} {cls result s t : Id}
      (aims : db.Aims source target s t) :
      Leads db mls (.type kind source target cls result) (.type kind s t cls) (.entity result)
  | named {source : Id} {target : RuleTarget} {cls result s t : Id} {name : String}
      (aims : db.Aims source target s t) :
      Leads db mls (.namedTransition source target cls name result) (.named s t cls name) (.entity result)
  | role {source target cls result role type : Id} (moved : role ∈ db.expandRole source)
      (met : type ∈ db.expandType target) :
      Leads db mls (.roleTransition source target cls result) (.role role type cls) (.entity result)
  | range {source target cls s t : Id} {range : RangeArg Id} {levels : LevelValue × LevelValue}
      (counts : mls = true) (aims : db.Aims source (.type target) s t)
      (evaluates : db.evalRange range = .ok levels) :
      Leads db mls (.rangeTransition source target cls range) (.range s t cls) (.levels levels)

/-- A rule has one outcome, whatever the trigger. -/
theorem EvaluatedDatabase.Leads.outcome_eq {db : EvaluatedDatabase} {mls : Bool} {rule : Rule}
    {trigger trigger' : Trigger} {outcome outcome' : Outcome} (leads : db.Leads mls rule trigger outcome)
    (leads' : db.Leads mls rule trigger' outcome') : outcome = outcome' := by
  cases leads with
  | type => cases leads'; rfl
  | named => cases leads'; rfl
  | role => cases leads'; rfl
  | range _ _ evaluates =>
    cases leads' with
    | range _ _ evaluates' =>
      rw [evaluates] at evaluates'
      cases evaluates'
      rfl

theorem EvaluatedDatabase.Evaluated.within_expandRole {db : EvaluatedDatabase} (evaluated : db.Evaluated)
    (id : Id) : Within (Member.concretes db.roleMembers) (db.expandRole id) := by
  rw [expandRole, evaluated.roles]
  exact Member.allWithin_expandAll _ id

/-! ### Transitions in kernel values -/

/-- What an entry of the tables says. -/
inductive Transition where
  | type (key : AccessKey) (word : BitVec 32)
  | named (source : Nat) (key : FilenameKey) (result : Nat)
  | role (transition : RoleTransition)
  | range (transition : RangeTransition)

/-- The table of a transition. -/
inductive TransitionKind where
  | type
  | named
  | role
  | range
deriving DecidableEq

/-- What a transition in kernel values depends on. -/
inductive TransitionKey where
  | type (key : AccessKey)
  | named (source : Nat) (key : FilenameKey)
  | role (role type cls : Nat)
  | range (source target cls : Nat)

def RoleTransition.key (r : RoleTransition) : TransitionKey :=
  .role r.role r.type r.cls

def RangeTransition.key (r : RangeTransition) : TransitionKey :=
  .range r.source r.target r.cls

namespace Transition

def key : Transition → TransitionKey
  | type key _ => .type key
  | named source key _ => .named source key
  | role r => r.key
  | range r => r.key

def kind : Transition → TransitionKind
  | type .. => .type
  | named .. => .named
  | role _ => .role
  | range _ => .range

/-- Different results for one key. -/
def Clashes (x y : Transition) : Prop :=
  x.key = y.key ∧ x ≠ y

theorem Clashes.symm {x y : Transition} (clash : x.Clashes y) : y.Clashes x :=
  ⟨clash.1.symm, clash.2.symm⟩

theorem Clashes.kind_eq {x y : Transition} (clash : x.Clashes y) : x.kind = y.kind := by
  obtain ⟨same, _⟩ := clash
  cases x <;> cases y <;> first | rfl | cases same

end Transition

namespace Lowering

variable {l : Lowering} {location : Location}

/-- The transition has the values of the trigger and the outcome. -/
inductive Represents (l : Lowering) : Trigger → Outcome → Transition → Prop
  | type {kind : TypeRuleKind} {s t cls result : Id} {key : AccessKey} {word : BitVec 32}
      (source : l.types.value? s = some key.source.toNat) (target : l.types.value? t = some key.target.toNat)
      (number : l.classes.value? cls = some key.cls.toNat) (kinds : kind.kinds = key.kinds)
      (results : l.resultWord? result = some word) :
      Represents l (.type kind s t cls) (.entity result) (.type key word)
  | named {s t cls result : Id} {name : String} {v w c n : Nat} (source : l.types.value? s = some v)
      (target : l.types.value? t = some w) (number : l.classNumber cls = c)
      (results : l.typeValue? result = some n) :
      Represents l (.named s t cls name) (.entity result) (.named v ⟨w, c, name⟩ n)
  | role {role type cls result : Id} {r : RoleTransition} (moved : l.roles.value? role = some r.role)
      (met : l.types.value? type = some r.type) (number : l.classNumber cls = r.cls)
      (results : l.roles.value? result = some r.newRole) :
      Represents l (.role role type cls) (.entity result) (.role r)
  | range {s t cls : Id} {levels : LevelValue × LevelValue} {r : RangeTransition}
      (source : l.types.value? s = some r.source) (target : l.types.value? t = some r.target)
      (number : l.classNumber cls = r.cls) (results : l.levelRange levels = r.range) :
      Represents l (.range s t cls) (.levels levels) (.range r)

/-- By the rule, the tables are to have the transition. -/
def Brings (l : Lowering) (rule : Rule) (x : Transition) : Prop :=
  ∃ trigger outcome, l.db.Leads l.settings.mls rule trigger outcome ∧ l.Represents trigger outcome x

/-- One outcome has one result under a key. -/
theorem Represents.eq_of_key {trigger trigger' : Trigger} {outcome : Outcome} {x y : Transition}
    (represents : l.Represents trigger outcome x) (represents' : l.Represents trigger' outcome y)
    (same : x.key = y.key) : x = y := by
  cases represents with
  | type _ _ _ _ results =>
    cases represents' with
    | type _ _ _ _ results' =>
      cases same
      cases results.symm.trans results'
      rfl
    | _ => cases same
  | named _ _ _ results =>
    cases represents' with
    | named _ _ _ results' =>
      cases same
      cases results.symm.trans results'
      rfl
    | _ => cases same
  | @role _ _ _ _ r _ _ _ results =>
    cases represents' with
    | @role _ _ _ _ r' _ _ _ results' =>
      obtain ⟨role, type, newRole, cls⟩ := r
      obtain ⟨role', type', newRole', cls'⟩ := r'
      cases same
      cases results.symm.trans results'
      rfl
    | _ => cases same
  | @range _ _ _ _ r _ _ _ results =>
    cases represents' with
    | @range _ _ _ _ r' _ _ _ results' =>
      obtain ⟨source, target, cls, range⟩ := r
      obtain ⟨source', target', cls', range'⟩ := r'
      cases same
      cases results.symm.trans results'
      rfl

/-- What one rule brings never clashes, since the rule has one outcome. -/
theorem Brings.coherent {rule : Rule} {x y : Transition} (brings : l.Brings rule x) (brings' : l.Brings rule y) :
    ¬ x.Clashes y := by
  obtain ⟨trigger, outcome, leads, represents⟩ := brings
  obtain ⟨trigger', outcome', leads', represents'⟩ := brings'
  cases leads.outcome_eq leads'
  exact fun clash => clash.2 (represents.eq_of_key represents' clash.1)

end Lowering

/-! ### Tables as maps -/

@[simp] theorem AccessRules.word?_empty (key : AccessKey) : ({} : AccessRules).word? key = none := rfl

@[simp] theorem FilenameTransitions.result?_default (source : Nat) (key : FilenameKey) :
    (default : FilenameTransitions).result? source key = none := rfl

/-- The transition is in its table. -/
def RuleTables.Holds (t : RuleTables) : Transition → Prop
  | .type key word => key.kinds ∈ RuleKinds.resultKinds ∧ t.access.word? key = some word
  | .named source key result => 0 < source ∧ t.named.result? source key = some result
  | .role r => r ∈ t.roleTransitions
  | .range r => r ∈ t.rangeTransitions

/-- No two entries of a table have one key. -/
structure RuleTables.Keyed (t : RuleTables) : Prop where
  named : t.named.Grouped
  roles : (t.roleTransitions.map RoleTransition.key).Nodup
  ranges : (t.rangeTransitions.map RangeTransition.key).Nodup

theorem RuleTables.keyed_empty : ({} : RuleTables).Keyed :=
  ⟨FilenameTransitions.grouped_default, .nil, .nil⟩

/-- A search by key finds the one entry of the key. -/
theorem find?_of_nodup_keys {α κ : Type} {key : α → κ} {table : List α} (nodup : (table.map key).Nodup)
    {k : κ} {test : α → Bool} (tests : ∀ a, test a = true ↔ key a = k) :
    (table.find? test = none ∧ k ∉ table.map key) ∨
      ∃ a ∈ table, table.find? test = some a ∧ ∀ b ∈ table, key b = k ↔ b = a := by
  cases found : table.find? test with
  | none =>
    refine .inl ⟨rfl, fun mem => ?_⟩
    obtain ⟨a, ha, same⟩ := List.mem_map.mp mem
    exact List.find?_eq_none.mp found a ha ((tests a).mpr same)
  | some a =>
    have mem := List.mem_of_find?_eq_some found
    have same := (tests a).mp (List.find?_some found)
    refine .inr ⟨a, mem, rfl, fun b hb => ⟨fun eq => ?_, fun eq => eq ▸ same⟩⟩
    exact List.inj_on_of_nodup_map nodup hb mem (eq.trans same.symm)

theorem nodup_keys_append {α κ : Type} {key : α → κ} {table : List α} (nodup : (table.map key).Nodup) {a : α}
    (fresh : key a ∉ table.map key) : ((table ++ [a]).map key).Nodup := by
  rw [List.map_append, List.map_singleton]
  exact List.nodup_append.mpr ⟨nodup, List.nodup_singleton _, by
    rintro k hk _ hk' rfl
    exact fresh (List.mem_singleton.mp hk' ▸ hk)⟩

namespace Lowering

variable {l : Lowering} {location : Location}

/-! ### Single entries -/

/-- The result of a type rule for a pair. -/
theorem guarded_addResult {kind : TypeRuleKind} {cls : Id} {result : Nat} (pair : Nat × Nat) :
    Step.Guarded (l.addResult {} location kind cls result · pair) (fun _ => True)
      (fun r x => RuleTables.Holds { access := r } x) Transition.Clashes
      (∃ key, l.accessKey location pair cls kind.kinds = .ok key)
      (fun x => ∃ key, x = .type key (BitVec.ofNat 32 result) ∧
        pair = (key.source.toNat, key.target.toNat) ∧ l.classes.value? cls = some key.cls.toNat ∧
        kind.kinds = key.kinds) where
  keeps _ _ := trivial
  done_iff r _ := by
    cases hkey : l.accessKey location pair cls kind.kinds with
    | error d =>
      rw [addResult, hkey]
      exact iff_of_false (fun done => Option.some_ne_none d done) fun fit => by simp at fit
    | ok own =>
      have results : own.kinds ∈ RuleKinds.resultKinds := (accessKey_ok hkey).2.2.2 ▸ kind.kinds_result
      constructor
      · intro done
        refine ⟨⟨own, rfl⟩, ?_⟩
        rintro x _ hold ⟨key, rfl, brings⟩ ⟨same, differ⟩
        obtain rfl := (eq_accessKey_iff hkey).mpr brings
        cases x with
        | type key' word =>
          cases same
          obtain ⟨_, found⟩ := hold
          rw [addResult, hkey] at done
          simp only [AccessRules.word?_empty, Option.none_or, show r.word? key = some word from found] at done
          split at done
          · rename_i agrees
            exact differ (congrArg _ agrees)
          · cases done
        | _ => cases same
      · rintro ⟨_, free⟩
        rw [addResult, hkey]
        simp only [AccessRules.word?_empty, Option.none_or]
        cases found : r.word? own with
        | none => rfl
        | some word =>
          have agrees : word = BitVec.ofNat 32 result := by
            by_contra differ
            refine free (.type own word) (.type own (BitVec.ofNat 32 result)) ⟨results, found⟩
              ⟨own, rfl, (eq_accessKey_iff hkey).mp rfl⟩ ⟨rfl, fun same => ?_⟩
            cases same
            exact differ rfl
          simp only [if_pos agrees]
  holds_iff r _ done x := by
    cases x with
    | type key word =>
      have added : Has {} _ key word ↔ _ := addResult_iff r pair done
      refine (and_congr_right fun _ => added).trans ?_
      constructor
      · rintro ⟨results, old | ⟨brings, rfl⟩⟩
        · exact .inl ⟨results, old⟩
        · exact .inr ⟨key, rfl, brings⟩
      · rintro (⟨results, old⟩ | ⟨_, same, brings⟩)
        · exact ⟨results, .inl old⟩
        · cases same
          exact ⟨brings.2.2 ▸ kind.kinds_result, .inr ⟨brings, rfl⟩⟩
    | _ => simp [RuleTables.Holds]

/-- The result for a source and the name of an object. -/
theorem guarded_addNamed {cls : Nat} {name : String} {result : Nat} {pair : Nat × Nat} (positive : 0 < pair.1) :
    Step.Guarded (addNamed location cls name result · pair) FilenameTransitions.Grouped
      (fun t x => RuleTables.Holds { named := t } x) Transition.Clashes True
      (fun x => x = .named pair.1 ⟨pair.2, cls, name⟩ result) where
  keeps t held := by
    rw [addNamed]
    split
    · rename_i run
      exact held.add run
    · rename_i run
      exact held.add run
    · exact held
    · exact held
  done_iff t _ := by
    have refused : (∃ e, t.add pair.1 ⟨pair.2, cls, name⟩ result = .error e) ↔ _ :=
      FilenameTransitions.add_error_iff
    rw [addNamed, true_and]
    constructor
    · rintro done x _ hold rfl ⟨same, differ⟩
      cases x with
      | named source key r =>
        cases same
        obtain ⟨e, run⟩ := refused.mpr ⟨r, hold.2, fun eq => differ (eq ▸ rfl)⟩
        rw [run] at done
        cases e <;> cases done
      | _ => cases same
    · intro free
      split
      · rfl
      · rfl
      all_goals
        rename_i run
        obtain ⟨r, found, differ⟩ := refused.mp ⟨_, run⟩
        refine absurd ⟨rfl, fun same => ?_⟩ (free (.named pair.1 _ r) _ ⟨positive, found⟩ rfl)
        cases same
        exact differ rfl
  holds_iff t held done x := by
    rw [addNamed] at done ⊢
    cases run : t.add pair.1 ⟨pair.2, cls, name⟩ result with
    | error e =>
      rw [run] at done
      cases e <;> cases done
    | ok added =>
      obtain ⟨new, t'⟩ := added
      suffices grown : RuleTables.Holds { named := t' } x ↔
          RuleTables.Holds { named := t } x ∨ x = .named pair.1 ⟨pair.2, cls, name⟩ result by
        cases new <;> exact grown
      cases x with
      | named source key r =>
        refine (and_congr_right fun _ => FilenameTransitions.result?_add held run).trans ?_
        constructor
        · rintro ⟨known, old | ⟨bit, rfl, rfl⟩⟩
          · exact .inl ⟨known, old⟩
          · obtain rfl : source = pair.1 := by omega
            exact .inr rfl
        · rintro (⟨known, old⟩ | same)
          · exact ⟨known, .inl old⟩
          · cases same
            exact ⟨positive, .inr ⟨rfl, rfl, rfl⟩⟩
      | _ => simp [RuleTables.Holds]

/-- In a list of transitions, a new one stands behind all others, unless its key is there. -/
theorem guarded_listed {α : Type} {embed : α → Transition} {holds : List α → Transition → Prop} {r : α}
    {step : List α → Step (List α)} (test : α → Bool) (held : ∀ table x, holds table x ↔ ∃ s ∈ table, x = embed s)
    (injective : Function.Injective embed) (tests : ∀ s, test s = true ↔ (embed s).key = (embed r).key)
    (absent : ∀ table, table.find? test = none → step table = .done (table ++ [r]))
    (met : ∀ table, table.find? test = some r → (step table).table = table ∧ (step table).fault? = none)
    (refused : ∀ table s, table.find? test = some s → (embed s).key = (embed r).key → s ≠ r →
      ∃ d, step table = .fail table d) :
    Step.Guarded step (fun table => (table.map fun s => (embed s).key).Nodup) holds Transition.Clashes True
      (fun x => x = embed r) := by
  refine ⟨fun table nodup => ?_, fun table nodup => ?_, fun table nodup done x => ?_⟩
  all_goals
    rcases find?_of_nodup_keys nodup tests with ⟨unfound, fresh⟩ | ⟨s, mem, found, unique⟩
  · rw [absent table unfound]
    exact nodup_keys_append nodup fresh
  · by_cases same : s = r
    · rw [(met table (same ▸ found)).1]
      exact nodup
    · obtain ⟨d, failed⟩ := refused table s found ((unique s mem).mpr rfl) same
      rw [failed]
      exact nodup
  · rw [absent table unfound]
    refine iff_of_true rfl ⟨trivial, ?_⟩
    rintro x _ hold rfl ⟨same, -⟩
    obtain ⟨s, mem, rfl⟩ := (held table x).mp hold
    exact fresh (List.mem_map.mpr ⟨s, mem, same⟩)
  · by_cases same : s = r
    · refine iff_of_true (met table (same ▸ found)).2 ⟨trivial, ?_⟩
      rintro x _ hold rfl ⟨meet, differ⟩
      obtain ⟨s', mem', rfl⟩ := (held table x).mp hold
      exact differ (congrArg embed (((unique s' mem').mp meet).trans same))
    · have key := (unique s mem).mpr rfl
      obtain ⟨d, failed⟩ := refused table s found key same
      rw [failed]
      refine iff_of_false (Option.some_ne_none d) fun free => ?_
      exact free.2 (embed s) _ ((held table _).mpr ⟨s, mem, rfl⟩) rfl ⟨key, fun eq => same (injective eq)⟩
  · rw [absent table unfound, held, held, Step.done]
    simp [or_and_right, exists_or]
  · by_cases same : s = r
    · rw [(met table (same ▸ found)).1, held]
      exact (or_iff_left_of_imp fun eq => ⟨s, mem, same ▸ eq⟩).symm
    · obtain ⟨d, failed⟩ := refused table s found ((unique s mem).mpr rfl) same
      rw [failed] at done
      cases done

theorem guarded_addRole (r : RoleTransition) :
    Step.Guarded (addRole location · r) (fun table => (table.map RoleTransition.key).Nodup)
      (fun table x => RuleTables.Holds { roleTransitions := table } x) Transition.Clashes True
      (fun x => x = .role r) := by
  refine guarded_listed (fun s => s.role == r.role && s.type == r.type && s.cls == r.cls)
    (fun table x => ?_) (fun _ _ same => Transition.role.inj same) (fun s => ?_) ?_ ?_ ?_
  · cases x <;> simp [RuleTables.Holds]
  · simp only [Transition.key, RoleTransition.key, Bool.and_eq_true, beq_iff_eq, TransitionKey.role.injEq,
      and_assoc]
  · intro table absent
    rw [addRole, absent]
  · intro table found
    rw [addRole, found]
    simp
  · rintro table ⟨role, type, newRole, cls⟩ found key differ
    cases r
    cases key
    rw [addRole, found]
    exact ⟨_, if_neg fun same => differ (by cases same; rfl)⟩

theorem guarded_addRange (r : RangeTransition) :
    Step.Guarded (addRange location · r) (fun table => (table.map RangeTransition.key).Nodup)
      (fun table x => RuleTables.Holds { rangeTransitions := table } x) Transition.Clashes True
      (fun x => x = .range r) := by
  refine guarded_listed (fun s => s.source == r.source && s.target == r.target && s.cls == r.cls)
    (fun table x => ?_) (fun _ _ same => Transition.range.inj same) (fun s => ?_) ?_ ?_ ?_
  · cases x <;> simp [RuleTables.Holds]
  · simp only [Transition.key, RangeTransition.key, Bool.and_eq_true, beq_iff_eq, TransitionKey.range.injEq,
      and_assoc]
  · intro table absent
    rw [addRange, absent]
  · intro table found
    rw [addRange, found]
    simp [Step.done]
  · rintro table ⟨source, target, cls, range⟩ found key differ
    cases r
    cases key
    rw [addRange, found]
    exact ⟨_, if_neg fun same => differ (by cases same; rfl)⟩

/-! ### Rules -/

/-- What a rule needs by itself: values for what it names, which fit in keys, and a version that has
rules of its kind. -/
def Fits (l : Lowering) (r : PlacedRule) : Prop :=
  match r.rule with
  | .access kind source target permissions => ∀ kinds, kind.kinds? = some kinds →
    ∀ item ∈ grantItems (l.rulePairs source target) (l.db.grants permissions),
      ∃ key, l.accessKey r.location item.1 item.2.cls kinds = .ok key
  | .extended kind source target permissions => ∃ spec, l.db.extendedSpec? permissions = some spec ∧
    ∀ kinds, kind.extendedKinds? = some kinds → l.options.version.supports .extendedPermissions = true ∧
      ∀ pair ∈ l.rulePairs source target, ∃ key, l.accessKey r.location pair spec.cls kinds = .ok key
  | .type kind source target cls result => (∃ value, l.typeValue? result = some value) ∧
    ∀ pair ∈ l.concretePairs source target, ∃ key, l.accessKey r.location pair cls kind.kinds = .ok key
  | .namedTransition _ _ _ _ result => l.options.version.supports .filenameTransitions = true ∧
    ∃ value, l.typeValue? result = some value
  | .roleTransition _ _ _ result => ∃ value, l.roles.value? result = some value
  | .roleAllow _ _ => True
  | .rangeTransition _ _ _ range => l.settings.mls = true → ∃ levels, l.db.evalRange range = .ok levels

theorem addGrant_done {kinds : RuleKinds} (rules : AccessRules) (item : (Nat × Nat) × ClassGrant) :
    (l.addGrant location kinds rules item).fault? = none ↔
      ∃ key, l.accessKey location item.1 item.2.cls kinds = .ok key := by
  rw [Lowering.addGrant]
  cases l.accessKey location item.1 item.2.cls kinds <;> simp [Step.fail, Step.done]

theorem addNumbers_done {kinds : RuleKinds} {spec : ExtendedSpec Id BitSet} (rules : AccessRules)
    (pair : Nat × Nat) : (l.addNumbers location kinds spec rules pair).fault? = none ↔
      ∃ key, l.accessKey location pair spec.cls kinds = .ok key := by
  rw [addNumbers]
  cases l.accessKey location pair spec.cls kinds <;> simp [Step.fail, Step.done]

/-- Permissions have nothing to do with transitions. -/
theorem guarded_of_access {step : RuleTables → Step RuleTables} {own : Prop}
    (only : ∀ t, ∃ access neverAllows, (step t).table = { t with access, neverAllows })
    (done : ∀ t, (step t).fault? = none ↔ own)
    (words : ∀ t key, key.kinds ∈ RuleKinds.resultKinds →
      (step t).table.access.word? key = t.access.word? key) :
    Step.Guarded step RuleTables.Keyed RuleTables.Holds Transition.Clashes own (fun _ => False) := by
  refine Step.guarded_silent (fun t keyed => ?_) done (fun t x => ?_) fun _ => id
  · obtain ⟨access, neverAllows, same⟩ := only t
    rw [same]
    exact ⟨keyed.named, keyed.roles, keyed.ranges⟩
  · cases x with
    | type key word =>
      refine and_congr_right fun results => ?_
      rw [words t key results]
    | _ =>
      obtain ⟨access, neverAllows, same⟩ := only t
      rw [same]
      rfl

theorem guarded_addAccess {kind : AccessKind} {source : Id} {target : RuleTarget}
    {permissions : ClassPerms Id} :
    Step.Guarded (fun t => l.addAccess t location kind source target permissions) RuleTables.Keyed
      RuleTables.Holds Transition.Clashes (l.Fits ⟨location, .access kind source target permissions⟩)
      (fun _ => False) := by
  refine guarded_of_access (fun t => l.addAccess_only t location kind source target permissions)
    (fun t => ?_) fun t key results => addAccess_word? results
  unfold addAccess
  dsimp only [Fits]
  cases kind.kinds? with
  | none => simp [Step.done]
  | some kinds =>
    simp only [Option.some.injEq, forall_eq']
    exact Step.each_done_iff addGrant_done

theorem guarded_addExtended {kind : AccessKind} {source : Id} {target : RuleTarget}
    {permissions : ExtendedArg Id BitSet} :
    Step.Guarded (fun t => l.addExtended t location kind source target permissions) RuleTables.Keyed
      RuleTables.Holds Transition.Clashes (l.Fits ⟨location, .extended kind source target permissions⟩)
      (fun _ => False) := by
  refine guarded_of_access (fun t => l.addExtended_only t location kind source target permissions)
    (fun t => ?_) fun t key _ => ?_
  · unfold addExtended
    dsimp only [Fits]
    cases l.db.extendedSpec? permissions with
    | none => simp [Step.fail]
    | some spec =>
      cases kind.extendedKinds? with
      | none => simp [Step.done]
      | some kinds =>
        cases l.options.version.supports .extendedPermissions with
        | false => simp [Step.fail]
        | true =>
          simp only [Bool.not_true, Bool.false_eq_true, if_false, Option.some.injEq, forall_eq', true_and,
            exists_eq_left']
          exact Step.each_done_iff addNumbers_done
  · rw [AccessRules.word?, addExtended_words]
    rfl

section Evaluated

variable (evaluated : l.db.Evaluated)

include evaluated

theorem guarded_addTypeRule {kind : TypeRuleKind} {source : Id} {target : RuleTarget} {cls result : Id} :
    Step.Guarded (fun t => l.addTypeRule {} t location kind source target cls result) RuleTables.Keyed
      RuleTables.Holds Transition.Clashes (l.Fits ⟨location, .type kind source target cls result⟩)
      (l.Brings (.type kind source target cls result)) := by
  unfold addTypeRule
  dsimp only [Fits]
  cases hvalue : l.typeValue? result with
  | none => exact Step.guarded_fail (by simp)
  | some value =>
    have each : Step.Guarded
        (Step.each (l.addResult {} location kind cls value) · (l.concretePairs source target)) _ _ _ _ _ :=
      .each (fun pair _ => guarded_addResult pair) (by
        rintro _ _ _ _ _ _ ⟨key, rfl, _⟩ ⟨key', rfl, _⟩ ⟨same, differ⟩
        cases same
        exact differ rfl)
    refine .congr (each.lift (·.kind = .type) (fun _ _ => rfl) (fun _ _ => trivial)
      (fun t _ keyed _ => ⟨keyed.named, keyed.roles, keyed.ranges⟩) (fun t x own => ?_)
      (fun t access x other => ?_) (fun x new => ?_) fun x y own clash => clash.kind_eq.trans own) ?_ ?_
    · cases x <;> first | rfl | cases own
    · cases x <;> first | rfl | exact absurd rfl other
    · obtain ⟨_, _, _, rfl, _⟩ := new
      rfl
    · simp
    · intro x
      constructor
      · rintro ⟨_, mem, key, rfl, rfl, number, kinds⟩
        obtain ⟨s, t, aims, hs, ht⟩ := (mem_concretePairs evaluated).mp mem
        refine ⟨.type kind s t cls, .entity result, .type aims, .type hs ht number kinds ?_⟩
        rw [resultWord?, hvalue, Option.map_some]
      · rintro ⟨_, _, leads, represents⟩
        cases leads with
        | type aims =>
          cases represents with
          | @type _ _ _ _ _ key word hs ht number kinds results =>
            refine ⟨_, (mem_concretePairs evaluated).mpr ⟨_, _, aims, hs, ht⟩, key, ?_, rfl, number, kinds⟩
            rw [resultWord?, hvalue, Option.map_some] at results
            cases results
            rfl

theorem guarded_addNamedTransition {source : Id} {target : RuleTarget} {cls result : Id} {name : String} :
    Step.Guarded (fun t => l.addNamedTransition t location source target cls name result) RuleTables.Keyed
      RuleTables.Holds Transition.Clashes (l.Fits ⟨location, .namedTransition source target cls name result⟩)
      (l.Brings (.namedTransition source target cls name result)) := by
  unfold addNamedTransition
  dsimp only [Fits]
  cases l.options.version.supports .filenameTransitions with
  | false => exact Step.guarded_fail (by simp)
  | true =>
    simp only [Bool.not_true, Bool.false_eq_true, if_false]
    cases hvalue : l.typeValue? result with
    | none => exact Step.guarded_fail (by simp)
    | some value =>
      have positive : ∀ pair ∈ l.concretePairs source target, 0 < pair.1 := by
        intro pair mem
        obtain ⟨s, _, _, hs, _⟩ := (mem_concretePairs evaluated).mp mem
        exact Numbering.value?_pos hs
      have each : Step.Guarded
          (Step.each (addNamed location (l.classNumber cls) name value) · (l.concretePairs source target))
          _ _ _ _ _ :=
        .each (fun pair mem => guarded_addNamed (positive pair mem)) (by
          rintro ⟨_, _⟩ _ ⟨_, _⟩ _ _ _ rfl rfl ⟨same, differ⟩
          cases same
          exact differ rfl)
      refine .congr (each.lift (·.kind = .named) (fun _ _ => rfl) (fun _ keyed => keyed.named)
        (fun t _ keyed grouped => ⟨grouped, keyed.roles, keyed.ranges⟩) (fun t x own => ?_)
        (fun t named x other => ?_) (fun x new => ?_) fun x y own clash => clash.kind_eq.trans own) ?_ ?_
      · cases x <;> first | rfl | cases own
      · cases x <;> first | rfl | exact absurd rfl other
      · obtain ⟨_, _, rfl⟩ := new
        rfl
      · simp
      · intro x
        constructor
        · rintro ⟨pair, mem, rfl⟩
          obtain ⟨s, t, aims, hs, ht⟩ := (mem_concretePairs evaluated).mp mem
          exact ⟨.named s t cls name, .entity result, .named aims, .named hs ht rfl hvalue⟩
        · rintro ⟨_, _, leads, represents⟩
          cases leads with
          | named aims =>
            cases represents with
            | @named _ _ _ _ _ v w _ _ hs ht number results =>
              refine ⟨(v, w), (mem_concretePairs evaluated).mpr ⟨_, _, aims, hs, ht⟩, ?_⟩
              cases hvalue.symm.trans results
              rw [number]

theorem guarded_addRoleTransition {source target cls result : Id} :
    Step.Guarded (fun t => l.addRoleTransition t location source target cls result) RuleTables.Keyed
      RuleTables.Holds Transition.Clashes (l.Fits ⟨location, .roleTransition source target cls result⟩)
      (l.Brings (.roleTransition source target cls result)) := by
  unfold addRoleTransition
  dsimp only [Fits]
  cases hresult : l.roles.value? result with
  | none => exact Step.guarded_fail (by simp)
  | some newRole =>
    have each : Step.Guarded (Step.each (addRole location) · ((l.concreteRoles source).flatMap fun role =>
        (l.concreteTypes target).map fun type => (⟨role, type, newRole, l.classNumber cls⟩ : RoleTransition)))
        _ _ _ _ _ :=
      .each (fun r _ => guarded_addRole r) (by
        simp only [List.mem_flatMap, List.mem_map]
        rintro _ ⟨_, _, _, _, rfl⟩ _ ⟨_, _, _, _, rfl⟩ _ _ rfl rfl ⟨same, differ⟩
        cases same
        exact differ rfl)
    refine .congr (each.lift (·.kind = .role) (fun _ _ => rfl) (fun _ keyed => keyed.roles)
      (fun t _ keyed nodup => ⟨keyed.named, nodup, keyed.ranges⟩) (fun t x own => ?_)
      (fun t roles x other => ?_) (fun x new => ?_) fun x y own clash => clash.kind_eq.trans own) ?_ ?_
    · cases x <;> first | rfl | cases own
    · cases x <;> first | rfl | exact absurd rfl other
    · obtain ⟨_, _, rfl⟩ := new
      rfl
    · simp
    · intro x
      simp only [List.mem_flatMap, List.mem_map, concreteRoles, List.mem_filterMap,
        mem_concreteTypes evaluated, BitSet.mem_toList (evaluated.within_expandRole source).wellFormed]
      constructor
      · rintro ⟨_, ⟨_, ⟨role, moved, hrole⟩, _, ⟨type, met, htype⟩, rfl⟩, rfl⟩
        exact ⟨.role role type cls, .entity result, .role moved met, .role hrole htype rfl hresult⟩
      · rintro ⟨_, _, leads, represents⟩
        cases leads with
        | role moved met =>
          cases represents with
          | @role _ _ _ _ r hrole htype number results =>
            refine ⟨r, ⟨r.role, ⟨_, moved, hrole⟩, r.type, ⟨_, met, htype⟩, ?_⟩, rfl⟩
            cases hresult.symm.trans results
            rw [number]

theorem guarded_addRangeTransition {source target cls : Id} {range : RangeArg Id} :
    Step.Guarded (fun t => l.addRangeTransition t location source target cls range) RuleTables.Keyed
      RuleTables.Holds Transition.Clashes (l.Fits ⟨location, .rangeTransition source target cls range⟩)
      (l.Brings (.rangeTransition source target cls range)) := by
  unfold addRangeTransition evalRange
  dsimp only [Fits]
  cases mls : l.settings.mls with
  | false =>
    refine Step.guarded_silent (fun _ keyed => keyed) (fun t => ?_) (fun _ _ => Iff.rfl) ?_
    · simp [Step.done]
    · rintro x ⟨_, _, leads, _⟩
      cases leads with
      | range counts => exact Bool.false_ne_true (mls.symm.trans counts)
  | true =>
    simp only [Bool.not_true, Bool.false_eq_true, if_false, if_true]
    cases hlevels : l.db.evalRange range with
    | error fault => exact Step.guarded_fail (by simp)
    | ok levels =>
      have each : Step.Guarded (Step.each (addRange location) ·
          ((l.concretePairs source (.type target)).map fun pair =>
            (⟨pair.1, pair.2, l.classNumber cls, l.levelRange levels⟩ : RangeTransition))) _ _ _ _ _ :=
        .each (fun r _ => guarded_addRange r) (by
          simp only [List.mem_map]
          rintro _ ⟨⟨_, _⟩, _, rfl⟩ _ ⟨⟨_, _⟩, _, rfl⟩ _ _ rfl rfl ⟨same, differ⟩
          cases same
          exact differ rfl)
      refine .congr (each.lift (·.kind = .range) (fun _ _ => rfl) (fun _ keyed => keyed.ranges)
        (fun t _ keyed nodup => ⟨keyed.named, keyed.roles, nodup⟩) (fun t x own => ?_)
        (fun t ranges x other => ?_) (fun x new => ?_) fun x y own clash => clash.kind_eq.trans own) ?_ ?_
      · cases x <;> first | rfl | cases own
      · cases x <;> first | rfl | exact absurd rfl other
      · obtain ⟨_, _, rfl⟩ := new
        rfl
      · simp
      · intro x
        simp only [List.mem_map, mem_concretePairs evaluated]
        constructor
        · rintro ⟨_, ⟨pair, ⟨s, t, aims, hs, ht⟩, rfl⟩, rfl⟩
          exact ⟨.range s t cls, .levels levels, .range mls aims hlevels, .range hs ht rfl rfl⟩
        · rintro ⟨_, _, leads, represents⟩
          cases leads with
          | range _ aims evaluates =>
            cases represents with
            | @range _ _ _ _ r hs ht number results =>
              refine ⟨r, ⟨(r.source, r.target), ⟨_, _, aims, hs, ht⟩, ?_⟩, rfl⟩
              cases hlevels.symm.trans evaluates
              rw [number, results]

/-- Every rule is guarded: it is at fault when it does not fit by itself, or when it brings a
transition that clashes with one in the tables. -/
theorem guarded_addRule (r : PlacedRule) :
    Step.Guarded (l.addRule · r) RuleTables.Keyed RuleTables.Holds Transition.Clashes (l.Fits r)
      (l.Brings r.rule) := by
  obtain ⟨location, rule⟩ := r
  have nothing : (∀ trigger outcome, ¬ l.db.Leads l.settings.mls rule trigger outcome) →
      ∀ x, False ↔ l.Brings rule x :=
    fun none x => (iff_of_false id fun ⟨trigger, outcome, leads, _⟩ => none trigger outcome leads)
  cases rule with
  | access kind source target permissions =>
    exact guarded_addAccess.congr Iff.rfl (nothing fun _ _ leads => by cases leads)
  | extended kind source target permissions =>
    exact guarded_addExtended.congr Iff.rfl (nothing fun _ _ leads => by cases leads)
  | type kind source target cls result => exact guarded_addTypeRule evaluated
  | namedTransition source target cls name result => exact guarded_addNamedTransition evaluated
  | roleTransition source target cls result => exact guarded_addRoleTransition evaluated
  | rangeTransition source target cls range => exact guarded_addRangeTransition evaluated
  | roleAllow source target =>
    refine (Step.guarded_silent (fun t keyed => ⟨keyed.named, keyed.roles, keyed.ranges⟩) (fun t => ?_)
      (fun t x => ?_) fun _ => id).congr Iff.rfl (nothing fun _ _ leads => by cases leads)
    · exact iff_of_true rfl trivial
    · cases x <;> rfl

/-! ### All rules -/

section Gathered

variable {items : List PlacedRule}

/-- Rules are lowered without faults exactly when each of them fits and no two bring transitions that
clash. -/
theorem gathered_done_iff : (Step.gather l.addRule {} items).faults = [] ↔ (∀ r ∈ items, l.Fits r) ∧
    ∀ r ∈ items, ∀ r' ∈ items, ∀ x y, l.Brings r.rule x → l.Brings r'.rule y → ¬ x.Clashes y := by
  refine (Step.gather_done_iff (fun _ _ clash => clash.symm) (fun r _ => guarded_addRule evaluated r)
    (fun r _ x y => Brings.coherent) RuleTables.keyed_empty).trans (and_congr_right fun _ => ?_)
  refine and_iff_right fun r _ x y hold => ?_
  cases x with
  | type key word => cases hold.2
  | named source key result => cases hold.2
  | _ => cases hold

/-- Then the tables have the transitions that some rule brings. -/
theorem gathered_holds_iff (done : (Step.gather l.addRule {} items).faults = []) (x : Transition) :
    (Step.gather l.addRule {} items).table.Holds x ↔ ∃ r ∈ items, l.Brings r.rule x := by
  refine (Step.gather_holds_iff (fun r _ => guarded_addRule evaluated r) RuleTables.keyed_empty done x).trans ?_
  refine or_iff_right fun hold => ?_
  cases x with
  | type key word => cases hold.2
  | named source key result => cases hold.2
  | _ => cases hold

end Gathered

/-- The rules outside conditionals are lowered without faults exactly when each of them fits and no
two bring transitions that clash. -/
theorem rules_done_iff : l.rules.faults = [] ↔ (∀ r ∈ l.db.rules, l.Fits r) ∧
    ∀ r ∈ l.db.rules, ∀ r' ∈ l.db.rules, ∀ x y, l.Brings r.rule x → l.Brings r'.rule y → ¬ x.Clashes y :=
  gathered_done_iff evaluated

theorem holds_rules_iff (done : l.rules.faults = []) (x : Transition) :
    l.rules.table.Holds x ↔ ∃ r ∈ l.db.rules, l.Brings r.rule x :=
  gathered_holds_iff evaluated done x

theorem keyed_rules : l.rules.table.Keyed :=
  Step.gather_keeps RuleTables.Keyed (fun t r _ => (guarded_addRule evaluated r).keeps t) RuleTables.keyed_empty

end Evaluated

end Lowering

end CilPolicy
