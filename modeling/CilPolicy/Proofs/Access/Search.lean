import CilPolicy.Proofs.Access.Table
import Mathlib.Data.List.Nodup
import Mathlib.Data.List.Perm.Subperm

/-!
# Searching an access table

A table comes of insertions, additions and changes of data. Each slot chains the handles of its
own entries in the order of their keys. That is what lets a search, which walks one chain and
stops at the first greater key, miss no entry that answers it. A handle goes on denoting its
entry, whatever is done to the table.
-/

namespace CilPolicy

namespace AccessKey

/-- Keys are ordered by source, then by target, then by class. -/
def Upto (a b : AccessKey) : Prop :=
  a.source < b.source ∨
    a.source = b.source ∧ (a.target < b.target ∨ a.target = b.target ∧ a.cls ≤ b.cls)

theorem upto_iff {a b : AccessKey} : a.Upto b ↔ a.place ≤ b.place := by
  have target := a.target.toNat_lt
  have cls := a.cls.toNat_lt
  have target' := b.target.toNat_lt
  have cls' := b.cls.toNat_lt
  simp only [Upto, place, UInt16.lt_iff_toNat_lt, UInt16.le_iff_toNat_le, ← UInt16.toNat_inj]
  omega

/-- The mark of a rule in force is no extended kind. -/
theorem overlap_extended_plain (k : AccessKey) :
    k.kinds.plain.overlap RuleKinds.extended = k.isExtended := by
  have masked : ~~~RuleKinds.enabled &&& RuleKinds.extended = RuleKinds.extended := by decide
  simp only [isExtended, RuleKinds.overlap, RuleKinds.plain, BitVec.and_assoc, masked]

end AccessKey

/-- The entry has the source, the target and the class of the key and one of its kinds, where the
mark of a rule in force counts as none. -/
structure AccessEntry.Answers (e : AccessEntry) (key : AccessKey) : Prop where
  source : e.key.source = key.source
  target : e.key.target = key.target
  cls : e.key.cls = key.cls
  kinds : key.kinds.plain.overlap e.key.kinds = true

namespace AccessTable

variable {t : AccessTable} {key : AccessKey} {kinds : RuleKinds} {chain : List Nat}

theorem hits_iff {e : AccessEntry} : hits key.place key.kinds.plain e = true ↔ e.Answers key := by
  rw [hits, Bool.and_eq_true, beq_iff_eq]
  constructor
  · rintro ⟨same, overlap⟩
    obtain ⟨source, target, cls⟩ := AccessKey.place_injective same
    exact ⟨source, target, cls, overlap⟩
  · intro answers
    refine ⟨?_, answers.kinds⟩
    rw [AccessKey.place, AccessKey.place, answers.source, answers.target, answers.cls]

/-- The slot of a key is that of its place. -/
theorem slotOf_congr {a b : AccessKey} (same : a.place = b.place) : t.slotOf a = t.slotOf b := by
  obtain ⟨source, target, cls⟩ := AccessKey.place_injective same
  rw [slotOf, slotOf, AccessKey.slot, AccessKey.slot, AccessKey.hash, AccessKey.hash, source, target,
    cls]

/-! ### Chains -/

/-- The entry of the first handle stands at or before that of the second. -/
def Precedes (t : AccessTable) (i j : Nat) : Prop :=
  ∀ e f, t.entry? i = some e → t.entry? j = some f → e.key.Upto f.key

/-- Every slot chains the handles of its own entries, each once, in the order of their keys. -/
structure Chained (t : AccessTable) : Prop where
  slotted : 0 < t.slots.size
  own : ∀ (j : Nat) (chain : List Nat), t.slots[j]? = some chain →
    ∀ i, i ∈ chain ↔ ∃ e, t.entry? i = some e ∧ t.slotOf e.key = j
  once : ∀ (j : Nat) (chain : List Nat), t.slots[j]? = some chain → chain.Nodup
  ordered : ∀ (j : Nat) (chain : List Nat), t.slots[j]? = some chain → chain.Pairwise t.Precedes

theorem chained_withCapacity (rules : Nat) : (withCapacity rules).Chained := by
  have empty : ∀ (j : Nat) (chain : List Nat),
      (withCapacity rules).slots[j]? = some chain → chain = [] := by
    intro j chain listed
    have member : chain ∈ Array.replicate (slotCount rules) [] := Array.mem_of_getElem? listed
    exact (Array.mem_replicate.mp member).2
  refine ⟨(listed_withCapacity rules).slotted, fun j chain listed i => ?_, fun j chain listed => ?_,
    fun j chain listed => ?_⟩
  · rw [empty j chain listed]
    simp [withCapacity, entry?]
  · rw [empty j chain listed]
    exact List.nodup_nil
  · rw [empty j chain listed]
    exact List.Pairwise.nil

theorem slots_slotOf (slotted : 0 < t.slots.size) (key : AccessKey) :
    t.slots[t.slotOf key]? = some (t.chainOf key) := by
  rw [chainOf, Array.getD_eq_getD_getElem?, Array.getElem?_eq_getElem (slotOf_lt slotted key),
    Option.getD_some]

theorem entry?_add {datum : AccessDatum} {i : Nat} :
    entry? (t.add key datum).2 i =
      if i = t.entries.size then some ⟨key, datum⟩ else t.entry? i := by
  unfold entry?
  rw [entries_add, Array.getElem?_push]

theorem lt_size_of_known {i : Nat} {e : AccessEntry} (known : t.entry? i = some e) :
    i < t.entries.size :=
  (Array.getElem?_eq_some_iff.mp known).1

/-- The handle of a new entry is put behind what precedes it and before what it precedes. -/
theorem pairwise_chainInsert {datum : AccessDatum} (known : ∀ i ∈ chain, ∃ e, t.entry? i = some e)
    (ordered : chain.Pairwise t.Precedes) :
    (t.chainInsert key.place key.kinds.plain t.entries.size chain).Pairwise
      (t.add key datum).2.Precedes := by
  -- What two old handles denote is as before.
  have old : ∀ {i e}, t.entry? i = some e → entry? (t.add key datum).2 i = some e := by
    intro i e known
    rw [entry?_add, if_neg (Nat.ne_of_lt (lt_size_of_known known)), known]
  have new : entry? (t.add key datum).2 t.entries.size = some ⟨key, datum⟩ := by
    rw [entry?_add, if_pos rfl]
  have keep : ∀ {i j}, (∃ e, t.entry? i = some e) → (∃ e, t.entry? j = some e) → t.Precedes i j →
      (t.add key datum).2.Precedes i j := by
    rintro i j ⟨e, he⟩ ⟨f, hf⟩ precedes e' f' he' hf'
    cases (old he).symm.trans he'
    cases (old hf).symm.trans hf'
    exact precedes e f he hf
  induction chain with
  | nil => exact List.pairwise_singleton _ _
  | cons i rest ih =>
    obtain ⟨first, others⟩ := List.pairwise_cons.mp ordered
    obtain ⟨⟨e, he⟩, knownRest⟩ := List.forall_mem_cons.mp known
    have entry : t.entries[i]? = some e := he
    rw [chainInsert, entry]
    dsimp only
    split
    · rename_i ends
      have after : key.place ≤ e.key.place := by
        rw [stops, hits, Bool.or_eq_true, Bool.and_eq_true, beq_iff_eq, decide_eq_true_eq] at ends
        omega
      have whole : (i :: rest).Pairwise (t.add key datum).2.Precedes :=
        ordered.imp_of_mem fun hi hj => keep (known _ hi) (known _ hj)
      refine List.pairwise_cons.mpr ⟨fun j hj f g hf hg => ?_, whole⟩
      cases new.symm.trans hf
      obtain ⟨g', hg'⟩ := known j hj
      cases (old hg').symm.trans hg
      rw [AccessKey.upto_iff]
      rcases List.mem_cons.mp hj with rfl | later
      · cases he.symm.trans hg'
        exact after
      · exact Nat.le_trans after (AccessKey.upto_iff.mp (first j later e g he hg'))
    · rename_i goes
      have before : e.key.place ≤ key.place := by
        rw [stops, Bool.or_eq_true, not_or, decide_eq_true_eq] at goes
        exact Nat.le_of_not_lt goes.2
      refine List.pairwise_cons.mpr ⟨fun j hj => ?_, ih knownRest others⟩
      rcases mem_chainInsert.mp hj with rfl | later
      · intro f g hf hg
        cases (old he).symm.trans hf
        cases new.symm.trans hg
        exact AccessKey.upto_iff.mpr before
      · exact keep ⟨e, he⟩ (knownRest j later) (first j later)

/-- A slot of the table with the new entry is the one that is changed, or as it was. -/
theorem slots_add (slotted : 0 < t.slots.size) {datum : AccessDatum} {j : Nat}
    (listed : (t.add key datum).2.slots[j]? = some chain) :
    j = t.slotOf key ∧ chain = t.chainInsert key.place key.kinds.plain t.entries.size (t.chainOf key) ∨
      j ≠ t.slotOf key ∧ t.slots[j]? = some chain := by
  change (t.slots.setIfInBounds (t.slotOf key) _)[j]? = some chain at listed
  by_cases same : t.slotOf key = j
  · subst same
    rw [Array.getElem?_setIfInBounds_self_of_lt (slotOf_lt slotted key)] at listed
    exact Or.inl ⟨rfl, (Option.some.inj listed).symm⟩
  · rw [Array.getElem?_setIfInBounds_ne same] at listed
    exact Or.inr ⟨Ne.symm same, listed⟩

/-- No chain is longer than the table has entries. -/
theorem Chained.length_le (chained : t.Chained) {j : Nat} (listed : t.slots[j]? = some chain) :
    chain.length ≤ t.size := by
  have inside : chain ⊆ List.range t.size := by
    intro i hi
    obtain ⟨e, he, _⟩ := (chained.own j chain listed i).mp hi
    exact List.mem_range.mpr (lt_size_of_known he)
  calc chain.length
      _ ≤ (List.range t.size).length := (List.subperm_of_subset (chained.once j chain listed) inside).length_le
      _ = t.size := List.length_range

theorem Chained.add (chained : t.Chained) (key : AccessKey) (datum : AccessDatum) :
    (t.add key datum).2.Chained := by
  have size : (t.add key datum).2.slots.size = t.slots.size := Array.size_setIfInBounds
  have slot : ∀ k, (t.add key datum).2.slotOf k = t.slotOf k := by
    intro k
    rw [slotOf, slotOf, size]
  have old := slots_slotOf chained.slotted key
  have fresh : t.entries.size ∉ t.chainOf key := by
    intro member
    obtain ⟨e, he, _⟩ := (chained.own _ _ old _).mp member
    exact Nat.lt_irrefl _ (lt_size_of_known he)
  refine ⟨size ▸ chained.slotted, fun j chain listed i => ?_, fun j chain listed => ?_,
    fun j chain listed => ?_⟩
  · simp only [slot, entry?_add]
    rcases slots_add chained.slotted listed with ⟨rfl, rfl⟩ | ⟨other, listed⟩
    · rw [mem_chainInsert, chained.own _ _ old]
      by_cases new : i = t.entries.size
      · simp [new]
      · simp [new]
    · rw [chained.own _ _ listed]
      by_cases new : i = t.entries.size
      · subst new
        have unknown : ∀ e, t.entry? t.entries.size ≠ some e := fun e he =>
          Nat.lt_irrefl _ (lt_size_of_known he)
        simp [unknown, Ne.symm other]
      · simp [new]
  · rcases slots_add chained.slotted listed with ⟨rfl, rfl⟩ | ⟨_, listed⟩
    · rw [(t.chainInsert_perm _ _ _ _).nodup_iff, List.nodup_cons]
      exact ⟨fresh, chained.once _ _ old⟩
    · exact chained.once _ _ listed
  · rcases slots_add chained.slotted listed with ⟨rfl, rfl⟩ | ⟨_, listed⟩
    · refine pairwise_chainInsert (fun i hi => ?_) (chained.ordered _ _ old)
      obtain ⟨e, he, _⟩ := (chained.own _ _ old i).mp hi
      exact ⟨e, he⟩
    · refine (chained.ordered _ _ listed).imp_of_mem fun {i i'} hi hi' precedes e f he hf => ?_
      obtain ⟨e', he', _⟩ := (chained.own _ _ listed i).mp hi
      obtain ⟨f', hf', _⟩ := (chained.own _ _ listed i').mp hi'
      rw [entry?_add, if_neg (Nat.ne_of_lt (lt_size_of_known he'))] at he
      rw [entry?_add, if_neg (Nat.ne_of_lt (lt_size_of_known hf'))] at hf
      exact precedes e f he hf

theorem entry?_modify {handle i : Nat} {change : AccessDatum → AccessDatum} :
    entry? (t.modify handle change) i =
      (t.entry? i).map fun e => if handle = i then { e with datum := change e.datum } else e := by
  unfold entry?
  rw [modify, Array.getElem?_modify]
  split
  · rfl
  · rw [Option.map_id']

/-- A change of data leaves the keys and the chains as they are. -/
theorem Chained.modify (chained : t.Chained) (handle : Nat) (change : AccessDatum → AccessDatum) :
    (t.modify handle change).Chained := by
  have keys : ∀ (i : Nat) (e : AccessEntry), entry? (t.modify handle change) i = some e →
      ∃ e', t.entry? i = some e' ∧ e'.key = e.key := by
    intro i e known
    rw [entry?_modify] at known
    obtain ⟨e', he', rfl⟩ := Option.map_eq_some_iff.mp known
    refine ⟨e', he', ?_⟩
    split
    · rfl
    · rfl
  refine ⟨chained.slotted, fun j chain listed i => (chained.own j chain listed i).trans ?_,
    chained.once, fun j chain listed => (chained.ordered j chain listed).imp ?_⟩
  · constructor
    · rintro ⟨e, he, slot⟩
      refine ⟨_, by rw [entry?_modify, he, Option.map_some], ?_⟩
      split
      · exact slot
      · exact slot
    · rintro ⟨e, he, slot⟩
      obtain ⟨e', he', same⟩ := keys i e he
      exact ⟨e', he', same ▸ slot⟩
  · intro i j precedes e f he hf
    obtain ⟨e', he', same⟩ := keys i e he
    obtain ⟨f', hf', same'⟩ := keys j f hf
    exact same ▸ same' ▸ precedes e' f' he' hf'

theorem Built.chained (built : t.Built) : t.Chained := by
  induction built with
  | withCapacity rules => exact chained_withCapacity rules
  | add _ key datum ih => exact ih.add key datum
  | insert _ run ih =>
    rw [entries_insert run]
    exact ih.add _ _
  | modify _ handle change ih => exact ih.modify handle change

/-! ### Walks -/

/-- The entry of the handle hits. -/
def hitsAt (t : AccessTable) (place : Nat) (kinds : RuleKinds) (i : Nat) : Bool :=
  (t.entry? i).any (hits place kinds)

/-- On a chain in order, a walk that stops early finds what a whole walk finds. -/
theorem scan_eq_find? {place : Nat} (known : ∀ i ∈ chain, ∃ e, t.entry? i = some e)
    (ordered : chain.Pairwise t.Precedes) :
    t.scan place kinds chain = chain.find? (t.hitsAt place kinds) := by
  induction chain with
  | nil => rfl
  | cons i rest ih =>
    obtain ⟨first, others⟩ := List.pairwise_cons.mp ordered
    obtain ⟨⟨e, he⟩, knownRest⟩ := List.forall_mem_cons.mp known
    have entry : t.entries[i]? = some e := he
    have hit : t.hitsAt place kinds i = hits place kinds e := by rw [hitsAt, he, Option.any_some]
    rw [scan, entry, List.find?_cons, hit]
    dsimp only
    by_cases found : hits place kinds e = true
    · rw [if_pos found, found]
    · rw [if_neg found, Bool.eq_false_iff.mpr found]
      dsimp only
      split
      · rename_i beyond
        refine (List.find?_eq_none.mpr fun j hj => ?_).symm
        obtain ⟨f, hf⟩ := knownRest j hj
        have later := AccessKey.upto_iff.mp (first j hj e f he hf)
        have apart : ¬ f.key.place = place := by omega
        rw [hitsAt, hf, Option.any_some, hits, Bool.and_eq_true, beq_iff_eq]
        exact fun hit => apart hit.1
      · exact ih knownRest others

theorem Chained.known (chained : t.Chained) (key : AccessKey) :
    ∀ i ∈ t.chainOf key, ∃ e, t.entry? i = some e ∧ t.slotOf e.key = t.slotOf key :=
  fun i hi => (chained.own _ _ (slots_slotOf chained.slotted key) i).mp hi

theorem Chained.find?_eq (chained : t.Chained) (key : AccessKey) :
    t.find? key = (t.chainOf key).find? (t.hitsAt key.place key.kinds.plain) := by
  refine scan_eq_find? (fun i hi => ?_) (chained.ordered _ _ (slots_slotOf chained.slotted key))
  obtain ⟨e, he, _⟩ := chained.known key i hi
  exact ⟨e, he⟩

/-- The search that goes on after a handle of a chain walks what is left of the chain. -/
theorem Chained.findNext?_eq_scan (chained : t.Chained) {front back : List Nat} {handle : Nat}
    {e : AccessEntry} (split : t.chainOf e.key = front ++ handle :: back) (known : t.entry? handle = some e) :
    t.findNext? handle kinds = t.scan e.key.place kinds back := by
  have once := chained.once _ _ (slots_slotOf chained.slotted e.key)
  rw [split] at once
  have ahead : ∀ i ∈ front, (i != handle) = true := by
    intro i hi
    rw [bne_iff_ne]
    exact (List.nodup_append.mp once).2.2 i hi handle List.mem_cons_self
  have left : ((front ++ handle :: back).dropWhile (· != handle)).drop 1 = back := by
    rw [List.dropWhile_append_of_pos ahead, List.dropWhile_cons_of_neg (by simp), List.drop_one,
      List.tail_cons]
  have entry : t.entries[handle]? = some e := known
  rw [findNext?, entry, Option.bind_eq_bind, Option.bind_some, split, left]

/-- It finds the next handle of the chain that hits. -/
theorem Chained.findNext?_eq (chained : t.Chained) {front back : List Nat} {handle : Nat}
    {e : AccessEntry} (split : t.chainOf key = front ++ handle :: back) (known : t.entry? handle = some e)
    (same : e.key.place = key.place) :
    t.findNext? handle kinds = back.find? (t.hitsAt key.place kinds) := by
  have chain : t.chainOf e.key = front ++ handle :: back := by
    rw [← split, chainOf, slotOf_congr same, ← chainOf]
  have ordered := chained.ordered _ _ (slots_slotOf chained.slotted key)
  rw [split] at ordered
  rw [chained.findNext?_eq_scan chain known, same]
  have behind := (List.pairwise_cons.mp (List.pairwise_append.mp ordered).2.1).2
  refine scan_eq_find? (fun i hi => ?_) behind
  obtain ⟨f, hf, _⟩ := chained.known key i (split ▸ by simp [hi])
  exact ⟨f, hf⟩

/-- A search comes to the handles one after the other, and then finds no more. -/
inductive Visits (t : AccessTable) (kinds : RuleKinds) : Option Nat → List Nat → Prop
  | done : Visits t kinds none []
  | next {handle : Nat} {rest : List Nat} (more : Visits t kinds (t.findNext? handle kinds) rest) :
      Visits t kinds (some handle) (handle :: rest)

/-- A search for a key comes to what hits on the chain of the key. -/
theorem Chained.visits (chained : t.Chained) (key : AccessKey) :
    t.Visits key.kinds.plain (t.find? key)
      ((t.chainOf key).filter (t.hitsAt key.place key.kinds.plain)) := by
  rw [chained.find?_eq]
  suffices walk : ∀ back front, t.chainOf key = front ++ back →
      t.Visits key.kinds.plain (back.find? (t.hitsAt key.place key.kinds.plain))
        (back.filter (t.hitsAt key.place key.kinds.plain)) from
    walk _ [] (List.nil_append _).symm
  intro back
  induction back with
  | nil => exact fun _ _ => .done
  | cons i rest ih =>
    intro front split
    have more := ih (front ++ [i]) (by simp [split])
    cases hit : t.hitsAt key.place key.kinds.plain i with
    | false =>
      rw [List.find?_cons_of_neg (by simp [hit]), List.filter_cons_of_neg (by simp [hit])]
      exact more
    | true =>
      obtain ⟨e, he, found⟩ := (Option.any_eq_true _ _).mp hit
      have same : e.key.place = key.place := by
        rw [hits, Bool.and_eq_true, beq_iff_eq] at found
        exact found.1
      rw [List.find?_cons_of_pos hit, List.filter_cons_of_pos hit]
      refine .next ?_
      rw [chained.findNext?_eq split he same]
      exact more

theorem findAll_go_eq {start : Option Nat} {visited : List Nat} (visits : t.Visits kinds start visited)
    {fuel : Nat} (enough : visited.length ≤ fuel) : findAll.go t kinds fuel start = visited := by
  induction visits generalizing fuel with
  | done => cases fuel <;> rfl
  | next more ih =>
    cases fuel with
    | zero => cases enough
    | succ fuel => rw [findAll.go, ih (Nat.le_of_succ_le_succ enough)]

theorem Chained.mem_answering (chained : t.Chained) (key : AccessKey) (i : Nat) :
    i ∈ (t.chainOf key).filter (t.hitsAt key.place key.kinds.plain) ↔
      ∃ e, t.entry? i = some e ∧ e.Answers key := by
  rw [List.mem_filter, chained.own _ _ (slots_slotOf chained.slotted key)]
  constructor
  · rintro ⟨⟨e, he, _⟩, hit⟩
    rw [hitsAt, he, Option.any_some] at hit
    exact ⟨e, he, hits_iff.mp hit⟩
  · rintro ⟨e, he, answers⟩
    have hit := hits_iff.mpr answers
    refine ⟨⟨e, he, slotOf_congr ?_⟩, by rw [hitsAt, he, Option.any_some, hit]⟩
    rw [hits, Bool.and_eq_true, beq_iff_eq] at hit
    exact hit.1

/-! ### Changes -/

/-- What is done to a table: an insertion, an addition, or a change of what a handle holds. -/
inductive Change
  | insert (key : AccessKey) (datum : AccessDatum)
  | add (key : AccessKey) (datum : AccessDatum)
  | modify (handle : Nat) (change : AccessDatum → AccessDatum)

/-- The table after the change. A refused insertion leaves it as it is. -/
def Change.apply (t : AccessTable) : Change → AccessTable
  | .insert key datum => (t.insert key datum).toOption.getD t
  | .add key datum => (t.add key datum).2
  | .modify handle change => t.modify handle change

/-- The table after the changes, one after the other. -/
def after (t : AccessTable) (changes : List Change) : AccessTable :=
  changes.foldl Change.apply t

/-- What the change makes of the datum of a handle. -/
def Change.onDatum (handle : Nat) (datum : AccessDatum) : Change → AccessDatum
  | .modify h change => if h = handle then change datum else datum
  | _ => datum

theorem Built.apply (built : t.Built) (c : Change) : (c.apply t).Built := by
  cases c with
  | insert key datum =>
    rw [Change.apply]
    cases run : t.insert key datum with
    | ok t' => exact .insert built run
    | error _ => exact built
  | add key datum => exact .add built key datum
  | modify handle change => exact .modify built handle change

theorem Built.after (built : t.Built) (changes : List Change) : (t.after changes).Built := by
  induction changes generalizing t with
  | nil => exact built
  | cons c rest ih => exact ih (built.apply c)

theorem entry?_apply {i : Nat} {e : AccessEntry} (known : t.entry? i = some e) (c : Change) :
    entry? (c.apply t) i = some ⟨e.key, c.onDatum i e.datum⟩ := by
  have added : ∀ key datum, entry? (t.add key datum).2 i = some e := by
    intro key datum
    rw [entry?_add, if_neg (Nat.ne_of_lt (lt_size_of_known known)), known]
  cases c with
  | insert key datum =>
    rw [Change.apply]
    cases run : t.insert key datum with
    | ok t' =>
      rw [Except.toOption, Option.getD_some, entries_insert run]
      exact added key datum
    | error _ => exact known
  | add key datum => exact added key datum
  | modify handle change =>
    rw [Change.apply, entry?_modify, known, Option.map_some, Change.onDatum]
    split
    · rfl
    · rfl

/-- A handle goes on denoting its entry. Only the changes of its datum tell on it. -/
theorem entry?_after {i : Nat} {e : AccessEntry} (known : t.entry? i = some e)
    (changes : List Change) :
    entry? (t.after changes) i = some ⟨e.key, changes.foldl (Change.onDatum i) e.datum⟩ := by
  induction changes generalizing t e with
  | nil => exact known
  | cons c rest ih => exact ih (entry?_apply known c)

/-! ### What a table of operations answers -/

theorem Built.mem_toList (built : t.Built) {e : AccessEntry} :
    e ∈ t.toList ↔ ∃ i, t.entry? i = some e := by
  rw [built.toList_perm.mem_iff, Array.mem_toList_iff, Array.mem_iff_getElem?]
  rfl

/-- The walk that is bounded by the number of entries comes to all that hits. -/
theorem Chained.findAll_eq (chained : t.Chained) (key : AccessKey) :
    t.findAll key key.kinds.plain =
      (t.chainOf key).filter (t.hitsAt key.place key.kinds.plain) := by
  refine findAll_go_eq (chained.visits key) ?_
  exact Nat.le_trans (List.length_filter_le _ _) (chained.length_le (slots_slotOf chained.slotted key))

theorem Chained.isSome_find? (chained : t.Chained) (key : AccessKey) :
    (t.find? key).isSome ↔ ∃ i e, t.entry? i = some e ∧ e.Answers key := by
  have answering := chained.mem_answering key
  rw [chained.find?_eq, List.find?_isSome]
  simp only [List.mem_filter] at answering
  exact exists_congr answering

theorem insert_eq (t : AccessTable) (key : AccessKey) (datum : AccessDatum) :
    t.insert key datum = if (t.find? key).isSome ∧ key.isExtended = false then
      .error .alreadyExists else .ok (t.add key datum).2 := by
  rw [insert, AccessKey.overlap_extended_plain]
  simp only [Bool.and_eq_true, Bool.not_eq_true']

open List in
theorem Built.toList_add (built : t.Built) (key : AccessKey) (datum : AccessDatum) :
    (t.add key datum).2.toList ~ ⟨key, datum⟩ :: t.toList := by
  refine (Built.add built key datum).toList_perm.trans ?_
  rw [entries_add, Array.toList_push]
  exact (List.perm_append_singleton _ _).trans (built.toList_perm.symm.cons _)

/-- A search finds something exactly when some listed entry answers the key. -/
theorem Built.finds_iff (built : t.Built) (key : AccessKey) :
    (t.find? key).isSome ↔ ∃ e ∈ t.toList, e.Answers key := by
  rw [built.chained.isSome_find?, exists_comm]
  simp only [built.mem_toList, exists_and_right]

/-- An insertion is refused exactly when the key is answered already and not one that may repeat. -/
theorem Built.refuses_iff (built : t.Built) (key : AccessKey) (datum : AccessDatum) :
    t.insert key datum = .error .alreadyExists ↔
      (∃ e ∈ t.toList, e.Answers key) ∧ key.isExtended = false := by
  rw [← built.finds_iff, insert_eq]
  split
  · rename_i taken
    exact iff_of_true rfl taken
  · rename_i free
    exact iff_of_false nofun free

open List in
theorem Built.inserts (built : t.Built) (key : AccessKey) (datum : AccessDatum) :
    t.insert key datum = .error .alreadyExists ∨
      ∃ t', t.insert key datum = .ok t' ∧ t'.toList ~ ⟨key, datum⟩ :: t.toList := by
  rw [insert_eq]
  split
  · exact .inl rfl
  · exact .inr ⟨_, rfl, built.toList_add key datum⟩

/-- Entries are all inserted when none before answers the key of one that is not extended. -/
theorem Built.exists_inserted {entries : List AccessEntry} (built : t.Built)
    (fresh : ∀ e ∈ entries, e.key.isExtended = false → ∀ f ∈ t.toList, ¬ f.Answers e.key)
    (apart : entries.Pairwise fun f e => e.key.isExtended = false → ¬ f.Answers e.key) :
    ∃ t' : AccessTable,
      entries.foldlM (fun table e => table.insert e.key e.datum) t = .ok t' ∧ t'.Built := by
  induction entries generalizing t with
  | nil => exact ⟨t, rfl, built⟩
  | cons e rest ih =>
    obtain ⟨ahead, apart⟩ := List.pairwise_cons.mp apart
    obtain refused | ⟨mid, run, listed⟩ := built.inserts e.key e.datum
    · obtain ⟨⟨f, hf, answers⟩, plain⟩ := (built.refuses_iff e.key e.datum).mp refused
      exact absurd answers (fresh e List.mem_cons_self plain f hf)
    · have later : ∀ g ∈ rest, g.key.isExtended = false → ∀ f ∈ mid.toList, ¬ f.Answers g.key := by
        intro g hg plain f hf
        rcases List.mem_cons.mp (listed.mem_iff.mp hf) with rfl | hf
        · exact ahead g hg plain
        · exact fresh g (List.mem_cons_of_mem e hg) plain f hf
      obtain ⟨last, others, made⟩ := ih (built.insert run) later apart
      refine ⟨last, ?_, made⟩
      rw [List.foldlM_cons, run]
      exact others

end AccessTable

end CilPolicy
