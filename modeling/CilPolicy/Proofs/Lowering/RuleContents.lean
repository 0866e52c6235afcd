import CilPolicy.Proofs.BitSet.Refinement
import CilPolicy.Proofs.Lowering.Expansion
import CilPolicy.Proofs.Lowering.RuleEntries

/-!
# What gathered rules tell

Gathered rules are known by what they tell: which keys they have, which permissions the words mark
and which numbers stand under a key. A rule adds what it tells by itself and takes nothing away. So
all rules together tell what the single ones do, in whatever order they are gathered.
-/

namespace CilPolicy

/-- Something that gathered rules may tell of a key. -/
inductive AccessFact where
  | word (key : AccessKey)
  | permission (key : AccessKey) (p : Nat)
  | numbers (key : AccessKey)
  | number (key : AccessKey) (n : Nat)

namespace AccessFact

/-- The fact is not about a result, and its permission has a place in a word. -/
def Granted : AccessFact → Prop
  | word key => key.kinds ∈ RuleKinds.vectorKinds
  | permission key p => key.kinds ∈ RuleKinds.vectorKinds ∧ p < 32
  | _ => True

/-- What a word of permissions under the key tells. -/
def OfWord (key : AccessKey) (permissions : BitVec 32) : AccessFact → Prop
  | word k => k = key
  | permission k p => k = key ∧ permissions.getLsbD p = true
  | _ => False

/-- What numbers under the key tell. -/
def OfNumbers (key : AccessKey) (added : BitSet) : AccessFact → Prop
  | numbers k => k = key
  | number k n => k = key ∧ n ∈ added
  | _ => False

end AccessFact

namespace AccessRules

variable {r r' : AccessRules} {key : AccessKey} {fact : AccessFact}

def Tells (r : AccessRules) : AccessFact → Prop
  | .word key => ∃ word, (key, word) ∈ r.words
  | .permission key p => r.Marks key p
  | .numbers key => ∃ numbers, (key, numbers) ∈ r.extended
  | .number key n => ∃ numbers, (key, numbers) ∈ r.extended ∧ n ∈ numbers

theorem not_tells_empty : ¬ Tells {} fact := by
  cases fact <;> simp [Tells, Marks]

/-- A changed list has the key of the change beside its own. -/
theorem exists_key_upsert {κ ν : Type} [DecidableEq κ] {key k : κ} {change : Option ν → ν} {l : List (κ × ν)} :
    (∃ w, (k, w) ∈ upsert key change l) ↔ (∃ w, (k, w) ∈ l) ∨ k = key := by
  have found : (∃ w, (k, w) ∈ upsert key change l ∧ True) ↔ (∃ w, (k, w) ∈ l ∧ True) ∨ (k = key ∧ True) :=
    exists_mem_upsert (by simp) (by simp)
  simpa only [and_true] using found

theorem tells_grant (granted : fact.Granted) {permissions : BitVec 32} :
    (r.grant key permissions).Tells fact ↔ r.Tells fact ∨ fact.OfWord key permissions := by
  cases fact with
  | word k => exact exists_key_upsert
  | permission k p => exact marks_grant granted.2
  | numbers => exact (or_iff_left id).symm
  | number => exact (or_iff_left id).symm

theorem tells_extend (fit : r.NumbersFit) {numbers : BitSet} (wf : numbers.WellFormed) :
    (r.extend key numbers).Tells fact ↔ r.Tells fact ∨ fact.OfNumbers key numbers := by
  cases fact with
  | word => exact (or_iff_left id).symm
  | permission => exact (or_iff_left id).symm
  | numbers k => exact exists_key_upsert
  | number k n =>
    refine exists_mem_upsert (fun _ => ?_) fun _ old hold => ?_
    · rw [Option.getD_none, BitSet.mem_union BitSet.wellFormed_empty wf]
      exact or_iff_right (BitSet.not_mem_empty n)
    · rw [Option.getD_some, BitSet.mem_union (fit k old hold) wf]

theorem tells_setResult (granted : fact.Granted) (kinds : key.kinds ∈ RuleKinds.resultKinds) {result : Nat} :
    (r.setResult key result).Tells fact ↔ r.Tells fact := by
  have other : ∀ {k : AccessKey}, k.kinds ∈ RuleKinds.vectorKinds → key.kinds ≠ k.kinds :=
    fun vector => RuleKinds.result_ne_vector kinds vector
  cases fact with
  | word k =>
    have differ : k ≠ key := fun same => other granted (same ▸ rfl)
    simp [Tells, setResult, differ]
  | permission k p => exact marks_setResult (other granted.1)
  | numbers => exact Iff.rfl
  | number => exact Iff.rfl

/-! ### Rules that tell the same -/

theorem Once.word?_iff (once : r.Once) {word : BitVec 32} : r.word? key = some word ↔ (key, word) ∈ r.words := by
  constructor
  · intro found
    obtain ⟨before, after, whole, _⟩ := List.lookup_eq_some_iff.mp found
    rw [whole]
    simp
  · intro listed
    cases found : r.word? key with
    | none =>
      have differ := List.lookup_eq_none_iff.mp found _ listed
      simp at differ
    | some other =>
      obtain ⟨before, after, whole, _⟩ := List.lookup_eq_some_iff.mp found
      have mem : (key, other) ∈ r.words := by
        rw [whole]
        simp
      exact congrArg (fun pair => some pair.2) (List.inj_on_of_nodup_map once.words mem listed rfl)

theorem Once.marks_iff (once : r.Once) {word : BitVec 32} (listed : (key, word) ∈ r.words) {p : Nat} :
    r.Marks key p ↔ marked key.kinds word p = true := by
  constructor
  · rintro ⟨word', listed', bit⟩
    cases List.inj_on_of_nodup_map once.words listed' listed rfl
    exact bit
  · exact fun bit => ⟨word, listed, bit⟩

/-- Words with the same marks are the same. -/
theorem eq_of_marked {kinds : RuleKinds} {word word' : BitVec 32}
    (same : ∀ p, p < 32 → (marked kinds word p = true ↔ marked kinds word' p = true)) : word = word' := by
  refine BitVec.eq_of_getLsbD_eq fun p lt => ?_
  have agrees := Bool.eq_iff_iff.mpr (same p lt)
  unfold marked at agrees
  split at agrees
  · exact Bool.not_inj agrees
  · exact agrees

/-- The rules have the same results, and tell the same of all else. -/
structure Agrees (r r' : AccessRules) : Prop where
  results : ∀ key, key.kinds ∈ RuleKinds.resultKinds → r.word? key = r'.word? key
  tells : ∀ fact : AccessFact, fact.Granted → (r.Tells fact ↔ r'.Tells fact)

theorem Agrees.symm (agrees : r.Agrees r') : r'.Agrees r :=
  ⟨fun key kinds => (agrees.results key kinds).symm, fun fact granted => (agrees.tells fact granted).symm⟩

theorem Agrees.mem_words (agrees : r.Agrees r') (once : r.Once) (once' : r'.Once) (kinds : r.KindsFit)
    {word : BitVec 32} (listed : (key, word) ∈ r.words) : (key, word) ∈ r'.words := by
  have split : key.kinds ∈ RuleKinds.vectorKinds ∨ key.kinds ∈ RuleKinds.resultKinds := by
    have known := kinds.words key word listed
    simp only [RuleKinds.words, RuleKinds.vectorKinds, RuleKinds.resultKinds, List.mem_cons,
      List.not_mem_nil, or_false] at known ⊢
    simpa only [or_assoc] using known
  rcases split with vector | result
  · obtain ⟨word', listed'⟩ := (agrees.tells (.word key) vector).mp ⟨word, listed⟩
    have same : word = word' := eq_of_marked fun p lt => by
      rw [← once.marks_iff listed, ← once'.marks_iff listed']
      exact agrees.tells (.permission key p) ⟨vector, lt⟩
    exact same ▸ listed'
  · rw [← once'.word?_iff, ← agrees.results key result]
    exact once.word?_iff.mpr listed

theorem Agrees.mem_extended (agrees : r.Agrees r') (once : r.Once) (once' : r'.Once) (fit : r.NumbersFit)
    (fit' : r'.NumbersFit) {numbers : BitSet} (listed : (key, numbers) ∈ r.extended) :
    (key, numbers) ∈ r'.extended := by
  obtain ⟨numbers', listed'⟩ := (agrees.tells (.numbers key) trivial).mp ⟨numbers, listed⟩
  have single : ∀ {r : AccessRules} {numbers : BitSet}, r.Once → (key, numbers) ∈ r.extended → ∀ n,
      (r.Tells (.number key n) ↔ n ∈ numbers) := by
    intro r numbers once listed n
    constructor
    · rintro ⟨other, mem, member⟩
      cases List.inj_on_of_nodup_map once.extended mem listed rfl
      exact member
    · exact fun member => ⟨numbers, listed, member⟩
  have same : numbers = numbers' := BitSet.eq_of_mem_iff (fit key _ listed) (fit' key _ listed') fun n => by
    rw [← single once listed, ← single once' listed']
    exact agrees.tells (.number key n) trivial
  exact same ▸ listed'

/-- Rules that agree have the same entries. -/
theorem Agrees.toEntries_perm (agrees : r.Agrees r') (once : r.Once) (once' : r'.Once) (kinds : r.KindsFit)
    (kinds' : r'.KindsFit) (fit : r.NumbersFit) (fit' : r'.NumbersFit) : r.toEntries.Perm r'.toEntries := by
  have words : r.words.Perm r'.words :=
    (List.perm_ext_iff_of_nodup (List.Nodup.of_map _ once.words) (List.Nodup.of_map _ once'.words)).mpr
      fun _ => ⟨agrees.mem_words once once' kinds, agrees.symm.mem_words once' once kinds'⟩
  have extended : r.extended.Perm r'.extended :=
    (List.perm_ext_iff_of_nodup (List.Nodup.of_map _ once.extended) (List.Nodup.of_map _ once'.extended)).mpr
      fun _ => ⟨agrees.mem_extended once once' fit fit', agrees.symm.mem_extended once' once fit' fit⟩
  exact (words.map _).append (extended.flatMap_right _)

/-- Rules that agree have the same words. -/
theorem Agrees.word?_eq (agrees : r.Agrees r') (once : r.Once) (once' : r'.Once) (kinds : r.KindsFit)
    (kinds' : r'.KindsFit) : r.word? = r'.word? := by
  funext key
  refine Option.ext fun word => ?_
  rw [once.word?_iff, once'.word?_iff]
  exact ⟨agrees.mem_words once once' kinds, agrees.symm.mem_words once' once kinds'⟩

end AccessRules

/-! ### What single rules tell -/

namespace Lowering

variable {l : Lowering} {location : Location} {t : RuleTables} {fact : AccessFact}

/-- By the rule, the fact is told. -/
def Says (l : Lowering) (r : PlacedRule) (fact : AccessFact) : Prop :=
  match r.rule with
  | .access kind source target permissions => ∃ key word,
    l.Grants r.location kind source target permissions key word ∧ fact.OfWord key word
  | .extended kind source target permissions => ∃ key numbers,
    l.Extends r.location kind source target permissions key numbers ∧ fact.OfNumbers key numbers
  | _ => False

theorem addAccess_tells (granted : fact.Granted) {kind : AccessKind} {source : Id} {target : RuleTarget}
    {permissions : ClassPerms Id}
    (done : (l.addAccess t location kind source target permissions).fault? = none) :
    (l.addAccess t location kind source target permissions).table.access.Tells fact ↔
      t.access.Tells fact ∨
        ∃ key word, l.Grants location kind source target permissions key word ∧ fact.OfWord key word := by
  unfold addAccess at done ⊢
  dsimp only at done ⊢
  cases hkinds : kind.kinds? with
  | none =>
    refine (or_iff_left ?_).symm
    rintro ⟨_, _, ⟨_, _, _, _, _, _, _, hkinds', _⟩, _⟩
    cases hkinds.symm.trans hkinds'
  | some kinds =>
    simp only [hkinds] at done ⊢
    have adds : ∀ (r : AccessRules) item, (l.addGrant location kinds r item).fault? = none →
        ((l.addGrant location kinds r item).table.Tells fact ↔ r.Tells fact ∨
          ∃ key, l.accessKey location item.1 item.2.cls kinds = .ok key ∧ fact.OfWord key item.2.word) := by
      intro r item done
      rw [Lowering.addGrant] at done ⊢
      split at done
      · cases done
      · rename_i key hkey
        rw [hkey]
        simp only [Step.done, AccessRules.tells_grant granted, Except.ok.injEq, exists_eq_left']
    refine (Step.each_iff (fun r : AccessRules => r.Tells fact) adds done).trans (or_congr_right ?_)
    simp only [grantItems, List.mem_flatMap, List.mem_map, List.mem_filter, bne_iff_ne]
    constructor
    · rintro ⟨_, ⟨pair, hpair, g, ⟨hg, nonzero⟩, rfl⟩, key, hkey, own⟩
      exact ⟨key, g.word, ⟨pair, hpair, g, hg, rfl, nonzero, kinds, hkinds, hkey⟩, own⟩
    · rintro ⟨key, _, ⟨pair, hpair, g, hg, rfl, nonzero, kinds', hkinds', hkey⟩, own⟩
      cases hkinds.symm.trans hkinds'
      exact ⟨_, ⟨pair, hpair, g, ⟨hg, nonzero⟩, rfl⟩, key, hkey, own⟩

theorem addExtended_tells {kind : AccessKind} {source : Id} {target : RuleTarget}
    {permissions : ExtendedArg Id BitSet}
    (proper : ∀ spec, l.db.extendedSpec? permissions = some spec → spec.numbers.WellFormed)
    (fit : t.access.NumbersFit)
    (done : (l.addExtended t location kind source target permissions).fault? = none) :
    (l.addExtended t location kind source target permissions).table.access.Tells fact ↔
      t.access.Tells fact ∨ ∃ key numbers,
        l.Extends location kind source target permissions key numbers ∧ fact.OfNumbers key numbers := by
  rw [addExtended] at done ⊢
  split at done
  · cases done
  · rename_i hkinds
    refine (or_iff_left ?_).symm
    rintro ⟨_, _, ⟨_, _, _, _, _, _, _, hkinds', _⟩, _⟩
    cases hkinds.symm.trans hkinds'
  · rename_i spec kinds hspec hkinds
    split at done
    · cases done
    · rename_i supported
      rw [if_neg supported]
      have wf := proper spec hspec
      have adds : ∀ (r : AccessRules), ∀ pair ∈ l.rulePairs source target, r.NumbersFit →
          (l.addNumbers location kinds spec r pair).fault? = none →
          ((l.addNumbers location kinds spec r pair).table.Tells fact ↔ r.Tells fact ∨
            ∃ key, l.accessKey location pair spec.cls kinds = .ok key ∧ fact.OfNumbers key spec.numbers) := by
        intro r pair _ fit done
        rw [addNumbers] at done ⊢
        split at done
        · cases done
        · rename_i key hkey
          rw [hkey]
          simp only [Step.done, AccessRules.tells_extend fit wf, Except.ok.injEq, exists_eq_left']
      refine (Step.each_iff_of_invariant AccessRules.NumbersFit (fun r : AccessRules => r.Tells fact)
        (fun r pair _ fit => addNumbers_numbersFit wf fit) adds fit done).trans (or_congr_right ?_)
      constructor
      · rintro ⟨pair, hpair, key, hkey, own⟩
        exact ⟨key, spec.numbers, ⟨by simpa using supported, pair, hpair, spec, kinds, hspec, rfl, hkinds, hkey⟩, own⟩
      · rintro ⟨key, _, ⟨_, pair, hpair, spec', kinds', hspec', rfl, hkinds', hkey⟩, own⟩
        cases hspec.symm.trans hspec'
        cases hkinds.symm.trans hkinds'
        exact ⟨pair, hpair, key, hkey, own⟩

theorem addTypeRule_tells (granted : fact.Granted) {base : AccessRules} {kind : TypeRuleKind} {source : Id}
    {target : RuleTarget} {cls result : Id} :
    (l.addTypeRule base t location kind source target cls result).table.access.Tells fact ↔
      t.access.Tells fact :=
  addTypeRule_keeps (fun r => r.Tells fact ↔ t.access.Tells fact)
    (fun _ _ _ sets _ _ held => (AccessRules.tells_setResult granted sets.result).trans held) Iff.rfl

/-- A rule adds what it tells. -/
theorem addRule_tells (passed : l.db.Passed) (granted : fact.Granted) {r : PlacedRule}
    (fits : l.db.RuleFits r.rule) (fit : t.access.NumbersFit) (done : (l.addRule t r).fault? = none) :
    (l.addRule t r).table.access.Tells fact ↔ t.access.Tells fact ∨ l.Says r fact := by
  rw [addRule_access, Says]
  rw [addRule] at done
  cases hrule : r.rule with
  | access kind source target permissions =>
    rw [hrule] at done
    exact addAccess_tells granted done
  | extended kind source target permissions =>
    rw [hrule] at done fits
    exact addExtended_tells (fun spec hspec => (passed.resolved.specFits fits hspec).2) fit done
  | type kind source target cls result =>
    rw [hrule] at done
    exact (addTypeRule_tells granted).trans (or_iff_left id).symm
  | _ => exact (or_iff_left id).symm

section Gathered

variable (passed : l.db.Passed) {items : List PlacedRule} (fits : ∀ r ∈ items, l.db.RuleFits r.rule)

include passed fits

theorem gathered_numbersFit : (Step.gather l.addRule {} items).table.access.NumbersFit :=
  Step.gather_keeps (fun t : RuleTables => t.access.NumbersFit)
    (fun _ r hr fit => addRule_numbersFit passed (fits r hr) fit) fun _ _ none => absurd none List.not_mem_nil

/-- Rules together tell what single ones do. -/
theorem gathered_tells_iff (done : (Step.gather l.addRule {} items).faults = []) (granted : fact.Granted) :
    (Step.gather l.addRule {} items).table.access.Tells fact ↔ ∃ r ∈ items, l.Says r fact := by
  refine (Step.gather_iff_of_invariant (fun t : RuleTables => t.access.NumbersFit)
    (fun t : RuleTables => t.access.Tells fact)
    (fun t r hr fit => addRule_numbersFit passed (fits r hr) fit)
    (fun t r hr fit done => addRule_tells passed granted (fits r hr) fit done)
    (fun _ _ none => absurd none List.not_mem_nil) done).trans ?_
  exact or_iff_right AccessRules.not_tells_empty

end Gathered

end Lowering

end CilPolicy
