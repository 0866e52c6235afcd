import CilPolicy.Access.Linked
import CilPolicy.Proofs.Access.Search
import CilPolicy.Proofs.Graph.Chain

/-!
# Linked chains hold what the slots list

A linked table agrees with a table whose slots list their handles: it has the same entries, and the
links of each slot lead along the handles of that slot's list. A walk passes the handles at which it
does not end, and a node that is linked in behind the last of them comes to stand where the list has
it. So every operation has a result on a table that comes of operations, and its result is that of the
other table.
-/

namespace CilPolicy

open CilPolicy.Graph (Threads)

namespace AccessTable

/-- A walk goes on from the handle. -/
def passes (t : AccessTable) (place : Nat) (kinds : RuleKinds) (i : Nat) : Bool :=
  !(t.entries[i]?).any (stops place kinds)

section Passes

variable {t : AccessTable} {place : Nat} {kinds : RuleKinds} {i : Nat}

theorem passes_none (unknown : t.entries[i]? = none) : t.passes place kinds i = true := by
  rw [passes, unknown, Option.any_none, Bool.not_false]

theorem passes_some {e : AccessEntry} (known : t.entries[i]? = some e) :
    t.passes place kinds i = !stops place kinds e := by
  rw [passes, known, Option.any_some]

/-- A handle is put in between those that a walk passes and those that are left. -/
theorem chainInsert_eq (t : AccessTable) (place : Nat) (kinds : RuleKinds) (handle : Nat) (chain : List Nat) :
    t.chainInsert place kinds handle chain =
      chain.takeWhile (t.passes place kinds) ++ handle :: chain.dropWhile (t.passes place kinds) := by
  induction chain with
  | nil => rfl
  | cons i rest ih =>
    cases entry : t.entries[i]? with
    | none =>
      have goes : t.passes place kinds i = true := passes_none entry
      rw [List.takeWhile_cons_of_pos goes, List.dropWhile_cons_of_pos goes, List.cons_append, ← ih,
        chainInsert, entry]
    | some e =>
      have passed : t.passes place kinds i = !stops place kinds e := passes_some entry
      cases ends : stops place kinds e with
      | true =>
        have stays : ¬ t.passes place kinds i = true := by simp [passed, ends]
        rw [List.takeWhile_cons_of_neg stays, List.dropWhile_cons_of_neg stays, chainInsert, entry]
        simp only [ends, if_true, List.nil_append]
      | false =>
        have goes : t.passes place kinds i = true := by simp [passed, ends]
        rw [List.takeWhile_cons_of_pos goes, List.dropWhile_cons_of_pos goes, List.cons_append, ← ih,
          chainInsert, entry]
        simp only [ends, Bool.false_eq_true, if_false]

end Passes

end AccessTable

namespace LinkedTable

variable {t t' : LinkedTable} {s s' : AccessTable} {key : AccessKey} {datum : AccessDatum}

theorem getElem?_entries (t : LinkedTable) (i : Nat) : t.entries[i]? = t.entry? i := by
  rw [entries, List.getElem?_map, Array.getElem?_toList, entry?]

/-- The table has the entries of the other, and its links lead along the chains of the other. -/
structure Agrees (t : LinkedTable) (s : AccessTable) : Prop where
  entries : t.entries = s.entries.toList
  mask : t.mask = UInt32.ofNat (s.slots.size - 1)
  slots : t.slots.size = s.slots.size
  threads : ∀ (j : Nat) (chain : List Nat), s.slots[j]? = some chain →
    ∃ head, t.slots[j]? = some head ∧ Threads t.next? head chain

namespace Agrees

theorem size (agrees : t.Agrees s) : t.size = s.entries.size := by
  have lengths := congrArg List.length agrees.entries
  simpa [LinkedTable.entries, LinkedTable.size] using lengths

theorem entry? (agrees : t.Agrees s) (i : Nat) : t.entry? i = s.entry? i := by
  rw [← getElem?_entries, agrees.entries, Array.getElem?_toList, AccessTable.entry?]

theorem slotOf (agrees : t.Agrees s) (key : AccessKey) : t.slotOf key = s.slotOf key := by
  rw [LinkedTable.slotOf, AccessTable.slotOf, agrees.mask]

theorem withCapacity (rules : Nat) : (withCapacity rules).Agrees (.withCapacity rules) := by
  rw [LinkedTable.withCapacity, AccessTable.withCapacity]
  generalize AccessTable.slotCount rules = count
  refine ⟨rfl, ?_, ?_, fun j chain listed => ?_⟩
  · rw [Array.size_replicate]
  · rw [Array.size_replicate, Array.size_replicate]
  · obtain ⟨inside, rfl⟩ := Array.getElem?_eq_some_iff.mp listed
    rw [Array.size_replicate] at inside
    refine ⟨none, ?_, ?_⟩
    · rw [Array.getElem?_replicate, if_pos inside]
    · rw [Array.getElem_replicate]
      exact .done

end Agrees

/-! ### Walks -/

theorem exists_node {i : Nat} {further : Option Nat} (found : t.next? i = some further) :
    ∃ e, t.nodes[i]? = some ⟨e, further⟩ := by
  obtain ⟨node, there, rfl⟩ := Option.map_eq_some_iff.mp found
  exact ⟨node.entry, there⟩

/-- A walk along a chain stops behind the handles that it passes, at what a scan of the chain finds. -/
theorem Agrees.walk? (agrees : t.Agrees s) {place : Nat} {kinds : RuleKinds} {head : Option Nat}
    {chain : List Nat} (threads : Threads t.next? head chain) {fuel : Nat} (enough : chain.length ≤ fuel)
    (before : Option Nat) : t.walk? place kinds fuel before head =
      some ⟨(chain.takeWhile (s.passes place kinds)).getLast?.or before, s.scan place kinds chain⟩ := by
  induction threads generalizing fuel before with
  | done => cases fuel <;> rfl
  | @step i further rest found more ih =>
    cases fuel with
    | zero => cases enough
    | succ fuel =>
      obtain ⟨e, node⟩ := exists_node found
      have entry : s.entries[i]? = some e := by
        rw [← AccessTable.entry?, ← agrees.entry?, LinkedTable.entry?, node, Option.map_some]
      have passed : s.passes place kinds i = !AccessTable.stops place kinds e := AccessTable.passes_some entry
      rw [LinkedTable.walk?, node, Option.bind_eq_bind, Option.bind_some, AccessTable.scan, entry]
      by_cases hit : AccessTable.hits place kinds e = true
      · have stays : ¬ s.passes place kinds i = true := by simp [passed, AccessTable.stops, hit]
        rw [List.takeWhile_cons_of_neg stays]
        simp [hit]
      · by_cases beyond : place < e.key.place
        · have stays : ¬ s.passes place kinds i = true := by simp [passed, AccessTable.stops, beyond]
          rw [List.takeWhile_cons_of_neg stays]
          simp [hit, beyond]
        · have goes : s.passes place kinds i = true := by simp [passed, AccessTable.stops, hit, beyond]
          -- What was passed last is the last of the rest that is passed, or this handle.
          have last : (i :: rest.takeWhile (s.passes place kinds)).getLast?.or before =
              (rest.takeWhile (s.passes place kinds)).getLast?.or (some i) := by
            rw [List.getLast?_cons]
            cases (rest.takeWhile (s.passes place kinds)).getLast? <;> rfl
          rw [List.takeWhile_cons_of_pos goes, last]
          simp [hit, beyond, ih (Nat.le_of_succ_le_succ enough) (some i)]

/-- A walk along the chain of a key passes what precedes the place of a new entry, and finds what a search
finds. -/
theorem Agrees.walkSlot? (agrees : t.Agrees s) (chained : s.Chained) (key : AccessKey) :
    t.walkSlot? key =
      some ⟨((s.chainOf key).takeWhile (s.passes key.place key.kinds.plain)).getLast?, s.find? key⟩ := by
  have listed := AccessTable.slots_slotOf chained.slotted key
  obtain ⟨head, found, threads⟩ := agrees.threads _ _ listed
  have short := Nat.le_trans (chained.length_le listed) (Nat.le_of_eq agrees.size.symm)
  rw [LinkedTable.walkSlot?, agrees.slotOf, found, Option.bind_eq_bind, Option.bind_some,
    agrees.walk? threads short none, Option.or_none]
  rfl

theorem Agrees.find? (agrees : t.Agrees s) (chained : s.Chained) (key : AccessKey) :
    t.find? key = some (s.find? key) := by
  rw [LinkedTable.find?, agrees.walkSlot? chained, Option.map_some]

/-- From an entry of the table, a search goes on as it does along the list. -/
theorem Agrees.findNext? (agrees : t.Agrees s) (chained : s.Chained) {handle : Nat} {e : AccessEntry}
    (known : s.entry? handle = some e) (kinds : RuleKinds) :
    t.findNext? handle kinds = some (s.findNext? handle kinds) := by
  have listed := AccessTable.slots_slotOf chained.slotted e.key
  have member : handle ∈ s.chainOf e.key := (chained.own _ _ listed handle).mpr ⟨e, known, rfl⟩
  obtain ⟨front, back, split⟩ := List.append_of_mem member
  obtain ⟨head, found, threads⟩ := agrees.threads _ _ listed
  rw [split] at threads
  obtain ⟨further, link, behind⟩ := threads.behind
  obtain ⟨e', node⟩ := exists_node link
  have entry : e' = e := by
    have same := (agrees.entry? handle).trans known
    rw [LinkedTable.entry?, node, Option.map_some] at same
    exact Option.some.inj same
  subst entry
  have short : back.length ≤ t.size := by
    have whole := chained.length_le listed
    rw [split, List.length_append, List.length_cons] at whole
    rw [agrees.size]
    change _ ≤ s.entries.size at whole
    omega
  rw [LinkedTable.findNext?, node, Option.bind_eq_bind, Option.bind_some, agrees.walk? behind short none,
    chained.findNext?_eq_scan split known]
  rfl

/-! ### Linking a node in -/

/-- A node is new in the chain of the slot, behind the handles that were passed and before those that are
left. Nothing else is linked otherwise than before. -/
structure Grown (t t' : LinkedTable) (slot : Nat) (entry : AccessEntry) (passed left : List Nat) : Prop where
  entries : t'.entries = t.entries ++ [entry]
  mask : t'.mask = t.mask
  slots : t'.slots.size = t.slots.size
  chain : ∃ head, t'.slots[slot]? = some head ∧ Threads t'.next? head (passed ++ t.size :: left)
  heads : ∀ j, j ≠ slot → t'.slots[j]? = t.slots[j]?
  links : ∀ p, p ≠ t.size → p ∉ passed → t'.next? p = t.next? p

theorem next?_push {entry : AccessEntry} {next : Option Nat} {slots : Array (Option Nat)} {mask : UInt32}
    (p : Nat) : next? ⟨t.nodes.push ⟨entry, next⟩, slots, mask⟩ p = if p = t.size then some next else t.next? p := by
  rw [LinkedTable.next?, Array.getElem?_push, LinkedTable.size]
  split
  · rfl
  · rfl

theorem next?_modify {nodes : Array AccessNode} {slots : Array (Option Nat)} {mask : UInt32} (i p : Nat)
    (next : Option Nat) : next? ⟨nodes.modify i fun node => { node with next := next }, slots, mask⟩ p =
      (next? ⟨nodes, slots, mask⟩ p).map fun old => if i = p then next else old := by
  rw [LinkedTable.next?, LinkedTable.next?, Array.getElem?_modify]
  split
  · rw [Option.map_map, Option.map_map]
    rfl
  · rw [Option.map_id']

theorem entries_modify (nodes : Array AccessNode) (i : Nat) (next : Option Nat) :
    (nodes.modify i fun node => { node with next := next }).toList.map AccessNode.entry =
      nodes.toList.map AccessNode.entry := by
  refine List.ext_getElem? fun j => ?_
  rw [List.getElem?_map, List.getElem?_map, Array.getElem?_toList, Array.getElem?_toList, Array.getElem?_modify]
  split
  · rw [Option.map_map]
    rfl
  · rfl

variable {slot : Nat} {head : Option Nat} {front back : List Nat} {entry : AccessEntry}

/-- A handle that has no node yet is in no chain. -/
theorem size_not_mem (threads : Threads t.next? head back) : t.size ∉ back := by
  intro member
  obtain ⟨before, after, rfl⟩ := List.append_of_mem member
  obtain ⟨_, found, _⟩ := threads.behind
  obtain ⟨_, node⟩ := exists_node found
  exact Nat.lt_irrefl _ (Array.getElem?_eq_some_iff.mp node).1

/-- A node that is linked in before a whole chain is the first of the slot. -/
theorem link?_first (found : t.slots[slot]? = some head) (threads : Threads t.next? head back)
    (entry : AccessEntry) : ∃ t', t.link? slot none entry = some (t.size, t') ∧ Grown t t' slot entry [] back := by
  refine ⟨_, by rw [link?, found]; rfl, ?_⟩
  have inside : slot < t.slots.size := (Array.getElem?_eq_some_iff.mp found).1
  have fresh := size_not_mem threads
  refine ⟨by simp [entries], rfl, Array.size_setIfInBounds, ⟨some t.size, ?_, ?_⟩, fun j other => ?_,
    fun p other _ => ?_⟩
  · exact Array.getElem?_setIfInBounds_self_of_lt inside
  · refine .step (by rw [next?_push, if_pos rfl]) (threads.congr fun p member => ?_)
    rw [next?_push, if_neg (ne_of_mem_of_not_mem member fresh)]
  · exact Array.getElem?_setIfInBounds_ne other.symm
  · rw [next?_push, if_neg other]

/-- A node that is linked in behind another takes over what that one was linked to. -/
theorem link?_behind {last : Nat} (found : t.slots[slot]? = some head)
    (threads : Threads t.next? head (front ++ last :: back)) (nodup : (front ++ last :: back).Nodup)
    (entry : AccessEntry) : ∃ t', t.link? slot (some last) entry = some (t.size, t') ∧
      Grown t t' slot entry (front ++ [last]) back := by
  obtain ⟨further, onward, behind⟩ := threads.behind
  have fresh := size_not_mem threads
  have apart : last ∉ front ∧ last ∉ back := by
    obtain ⟨_, nodupBack, disjoint⟩ := List.nodup_append.mp nodup
    exact ⟨fun member => disjoint last member last List.mem_cons_self rfl, (List.nodup_cons.mp nodupBack).1⟩
  simp only [List.mem_append, List.mem_cons, not_or] at fresh
  refine ⟨_, by rw [link?, onward]; rfl, ?_⟩
  have links : ∀ p, next? { t with nodes := (t.nodes.push ⟨entry, further⟩).modify last fun node =>
      { node with next := some t.size } } p =
        if p = t.size then some further else if p = last then some (some t.size) else t.next? p := by
    intro p
    rw [next?_modify, next?_push]
    by_cases new : p = t.size
    · subst new
      simp [Ne.symm fresh.2.1]
    · by_cases same : p = last
      · subst same
        simp [new, onward]
      · simp [new, same, Ne.symm same]
  refine ⟨?_, rfl, rfl, ⟨head, found, ?_⟩, fun j _ => rfl, fun p other outside => ?_⟩
  · exact (entries_modify _ last _).trans (by simp [entries])
  · rw [List.append_assoc, List.singleton_append]
    refine threads.splice (fun p member => ?_) (.step ?_ (.step ?_ (behind.congr fun p member => ?_)))
    · rw [links, if_neg (ne_of_mem_of_not_mem member fresh.1), if_neg (ne_of_mem_of_not_mem member apart.1)]
    · rw [links, if_neg (Ne.symm fresh.2.1), if_pos rfl]
    · rw [links, if_pos rfl]
    · rw [links, if_neg (ne_of_mem_of_not_mem member fresh.2.2), if_neg (ne_of_mem_of_not_mem member apart.2)]
  · simp only [List.mem_append, List.mem_singleton, not_or] at outside
    rw [links, if_neg other, if_neg outside.2]

/-- A node is linked in behind the last of the handles that were passed, if there are any. -/
theorem exists_grown (found : t.slots[slot]? = some head) (threads : Threads t.next? head (front ++ back))
    (nodup : (front ++ back).Nodup) (entry : AccessEntry) :
    ∃ t', t.link? slot front.getLast? entry = some (t.size, t') ∧ Grown t t' slot entry front back := by
  rcases List.eq_nil_or_concat' front with rfl | ⟨init, last, rfl⟩
  · exact link?_first found threads entry
  · rw [List.append_assoc, List.singleton_append] at threads nodup
    rw [List.getLast?_append, List.getLast?_singleton, Option.some_or]
    exact link?_behind found threads nodup entry

/-- A node that is linked in at the place of a key makes the table agree with the one that has the entry. -/
theorem Grown.agrees (agrees : t.Agrees s) (chained : s.Chained)
    (grown : Grown t t' (t.slotOf key) ⟨key, datum⟩
      ((s.chainOf key).takeWhile (s.passes key.place key.kinds.plain))
      ((s.chainOf key).dropWhile (s.passes key.place key.kinds.plain))) :
    t'.Agrees (s.add key datum).2 := by
  have size : (s.add key datum).2.slots.size = s.slots.size := Array.size_setIfInBounds
  refine ⟨?_, ?_, ?_, fun j chain listed => ?_⟩
  · rw [grown.entries, agrees.entries, AccessTable.entries_add, Array.toList_push]
  · rw [grown.mask, agrees.mask, size]
  · rw [grown.slots, agrees.slots, size]
  · rw [agrees.slotOf] at grown
    rcases AccessTable.slots_add chained.slotted listed with ⟨rfl, rfl⟩ | ⟨other, old⟩
    · rw [AccessTable.chainInsert_eq, ← agrees.size]
      exact grown.chain
    · obtain ⟨head, found, threads⟩ := agrees.threads j chain old
      refine ⟨head, (grown.heads j other).trans found, threads.congr fun p member => grown.links p ?_ fun passed => ?_⟩
      · exact ne_of_mem_of_not_mem member (size_not_mem threads)
      · -- A handle of two chains would have its entry in two slots.
        have here := List.takeWhile_sublist _ |>.subset passed
        obtain ⟨e, known, own⟩ := (chained.own j chain old p).mp member
        obtain ⟨e', known', own'⟩ := chained.known key p here
        cases known.symm.trans known'
        exact other (own.symm.trans own')

/-- Linking in at the place where the walk stops has a result, and the table agrees then. -/
theorem Agrees.link? (agrees : t.Agrees s) (chained : s.Chained) (key : AccessKey) (datum : AccessDatum) :
    ∃ t', t.link? (t.slotOf key) ((s.chainOf key).takeWhile (s.passes key.place key.kinds.plain)).getLast?
      ⟨key, datum⟩ = some (t.size, t') ∧ t'.Agrees (s.add key datum).2 := by
  have listed := AccessTable.slots_slotOf chained.slotted key
  obtain ⟨head, found, threads⟩ := agrees.threads _ _ listed
  have nodup := chained.once _ _ listed
  have parts := List.takeWhile_append_dropWhile (p := s.passes key.place key.kinds.plain) (l := s.chainOf key)
  rw [← parts] at threads nodup
  rw [← agrees.slotOf] at found
  obtain ⟨t', run, grown⟩ := exists_grown found threads nodup ⟨key, datum⟩
  exact ⟨t', run, grown.agrees agrees chained⟩

/-! ### Changes -/

theorem Agrees.add? (agrees : t.Agrees s) (chained : s.Chained) (key : AccessKey) (datum : AccessDatum) :
    ∃ t', t.add? key datum = some (t.size, t') ∧ t'.Agrees (s.add key datum).2 := by
  obtain ⟨t', run, agrees'⟩ := agrees.link? chained key datum
  exact ⟨t', by rw [LinkedTable.add?, agrees.walkSlot? chained, Option.bind_eq_bind, Option.bind_some, run], agrees'⟩

/-- An insertion is refused in both tables, and leaves this one, or is done in both. -/
theorem Agrees.insert? (agrees : t.Agrees s) (chained : s.Chained) (key : AccessKey) (datum : AccessDatum) :
    match s.insert key datum with
    | .error fault => t.insert? key datum = some (.error fault, t)
    | .ok s' => ∃ t', t.insert? key datum = some (.ok (), t') ∧ t'.Agrees s' := by
  by_cases taken : ((s.find? key).isSome && !key.kinds.plain.overlap RuleKinds.extended) = true
  · rw [AccessTable.insert, if_pos taken, LinkedTable.insert?, agrees.walkSlot? chained, Option.bind_eq_bind,
      Option.bind_some]
    exact if_pos taken
  · obtain ⟨t', run, agrees'⟩ := agrees.link? chained key datum
    rw [AccessTable.insert, if_neg taken]
    refine ⟨t', ?_, agrees'⟩
    rw [LinkedTable.insert?, agrees.walkSlot? chained, Option.bind_eq_bind, Option.bind_some]
    refine (if_neg taken).trans ?_
    rw [run]
    rfl

theorem Agrees.modify? (agrees : t.Agrees s) {handle : Nat} (known : handle < t.size)
    (change : AccessDatum → AccessDatum) :
    ∃ t', t.modify? handle change = some t' ∧ t'.Agrees (s.modify handle change) := by
  refine ⟨_, if_pos known, ?_, agrees.mask, agrees.slots, fun j chain listed => ?_⟩
  · refine List.ext_getElem? fun i => ?_
    rw [getElem?_entries, Array.getElem?_toList, ← AccessTable.entry?, AccessTable.entry?_modify, ← agrees.entry?,
      LinkedTable.entry?, LinkedTable.entry?, Array.getElem?_modify]
    split
    · rw [Option.map_map, Option.map_map]
      rfl
    · rw [Option.map_id']
  · obtain ⟨head, found, threads⟩ := agrees.threads j chain listed
    refine ⟨head, found, threads.congr fun p _ => ?_⟩
    rw [next?, next?, Array.getElem?_modify]
    split
    · rw [Option.map_map]
      rfl
    · rfl

/-! ### Listings -/

theorem mapM_eq_some {α β : Type} {f : α → Option β} {as : List α} {bs : List β}
    (each : List.Forall₂ (fun a b => f a = some b) as bs) : as.mapM f = some bs := by
  induction each with
  | nil => rfl
  | cons first _ ih =>
    rw [List.mapM_cons, first, ih]
    rfl

theorem Agrees.toList? (agrees : t.Agrees s) (chained : s.Chained) : t.toList? = some s.toList := by
  have chains : t.slots.toList.mapM (Graph.followLinks t.next? t.size) = some s.slots.toList := by
    refine mapM_eq_some (List.forall₂_iff_get.mpr ⟨agrees.slots, fun j _ inside => ?_⟩)
    have listed : s.slots[j]? = some (s.slots.toList.get ⟨j, inside⟩) := by
      rw [← Array.getElem?_toList]
      exact List.getElem?_eq_getElem inside
    obtain ⟨head, found, threads⟩ := agrees.threads j _ listed
    have first : t.slots.toList.get ⟨j, by assumption⟩ = head := by
      rw [← Array.getElem?_toList] at found
      exact (List.getElem?_eq_some_iff.mp found).2
    rw [first]
    exact threads.followLinks (Nat.le_trans (chained.length_le listed) (Nat.le_of_eq agrees.size.symm))
  have entry : t.entry? = fun i => s.entries[i]? := funext agrees.entry?
  rw [LinkedTable.toList?, chains, Option.bind_eq_bind, Option.bind_some, AccessTable.toList, entry]
  rfl

theorem Agrees.threads_findNext? (agrees : t.Agrees s) (chained : s.Chained) {kinds : RuleKinds}
    {start : Option Nat} {handles : List Nat} (visits : s.Visits kinds start handles)
    (known : ∀ i ∈ handles, ∃ e, s.entry? i = some e) : Threads (t.findNext? · kinds) start handles := by
  induction visits with
  | done => exact .done
  | next more ih =>
    obtain ⟨⟨e, first⟩, others⟩ := List.forall_mem_cons.mp known
    exact .step (agrees.findNext? chained first kinds) (ih others)

/-- A search goes on from one entry to the next until it finds no more. -/
theorem Agrees.findAll? (agrees : t.Agrees s) (chained : s.Chained) (key : AccessKey) :
    t.findAll? key = some (s.findAll key key.kinds.plain) := by
  have handles := chained.findAll_eq key
  have threads := agrees.threads_findNext? chained (chained.visits key) fun i member => by
    obtain ⟨e, known, _⟩ := (chained.mem_answering key i).mp member
    exact ⟨e, known⟩
  have short := Nat.le_trans (List.length_filter_le (s.hitsAt key.place key.kinds.plain) (s.chainOf key))
    (chained.length_le (AccessTable.slots_slotOf chained.slotted key))
  rw [LinkedTable.findAll?, agrees.find? chained, Option.bind_eq_bind, Option.bind_some, handles]
  exact threads.followLinks (Nat.le_trans short (Nat.le_of_eq agrees.size.symm))

/-! ### Runs -/

open AccessTable (Change)

/-- The table after the change, where a refused insertion leaves what it leaves. -/
def perform? (t : LinkedTable) : Change → Option LinkedTable
  | .insert key datum => (t.insert? key datum).map Prod.snd
  | .add key datum => (t.add? key datum).map Prod.snd
  | .modify handle change => t.modify? handle change

/-- The table after the changes, one after the other. -/
def after? (t : LinkedTable) (changes : List Change) : Option LinkedTable :=
  changes.foldlM perform? t

/-- The change is one of a datum that the table does not have. -/
def Misses (t : LinkedTable) (c : Change) : Prop :=
  ∃ handle change, c = .modify handle change ∧ t.size ≤ handle

/-- A change has a result if it names no handle without an entry, and the tables go on agreeing. -/
theorem Agrees.perform? (agrees : t.Agrees s) (chained : s.Chained) (c : Change) :
    (∃ t', t.perform? c = some t' ∧ t'.Agrees (c.apply s)) ∨ t.Misses c ∧ t.perform? c = none := by
  cases c with
  | insert key datum =>
    have inserted := agrees.insert? chained key datum
    rw [LinkedTable.perform?, Change.apply]
    cases run : s.insert key datum with
    | error fault =>
      rw [run] at inserted
      exact .inl ⟨t, by rw [inserted]; rfl, agrees⟩
    | ok s' =>
      rw [run] at inserted
      obtain ⟨t', run', agrees'⟩ := inserted
      exact .inl ⟨t', by rw [run']; rfl, agrees'⟩
  | add key datum =>
    obtain ⟨t', run, agrees'⟩ := agrees.add? chained key datum
    exact .inl ⟨t', by rw [LinkedTable.perform?, run]; rfl, agrees'⟩
  | modify handle change =>
    by_cases known : handle < t.size
    · exact .inl (agrees.modify? known change)
    · exact .inr ⟨⟨handle, change, rfl, Nat.le_of_not_lt known⟩, if_neg known⟩

/-- Tables that agree go on agreeing as long as there is a result. There is none only if some change comes to
a handle that has no entry then. -/
theorem Agrees.after? (agrees : t.Agrees s) (built : s.Built) (changes : List Change) :
    (∃ t', t.after? changes = some t' ∧ t'.Agrees (s.after changes)) ∨
      t.after? changes = none ∧ ∃ front c back t', changes = front ++ c :: back ∧
        t.after? front = some t' ∧ t'.Misses c := by
  induction changes generalizing t s with
  | nil => exact .inl ⟨t, rfl, agrees⟩
  | cons c rest ih =>
    rcases agrees.perform? built.chained c with ⟨mid, run, agrees'⟩ | ⟨misses, none⟩
    · have onward : ∀ changes, t.after? (c :: changes) = mid.after? changes := fun changes => by
        rw [LinkedTable.after?, List.foldlM_cons, run]
        rfl
      rcases ih agrees' (built.apply c) with ⟨t', more, done⟩ | ⟨stuck, front, c', back, t', split, more, misses⟩
      · exact .inl ⟨t', (onward rest).trans more, done⟩
      · refine .inr ⟨(onward rest).trans stuck, c :: front, c', back, t', ?_, (onward front).trans more, misses⟩
        rw [split, List.cons_append]
    · refine .inr ⟨?_, [], c, rest, t, rfl, rfl, misses⟩
      rw [LinkedTable.after?, List.foldlM_cons, none]
      rfl

/-! ### Faithful tables -/

/-- The entry of the first handle stands at or before that of the second. -/
def Precedes (t : LinkedTable) (i j : Nat) : Prop :=
  ∀ e f, t.entry? i = some e → t.entry? j = some f → e.key.Upto f.key

/-- The node of the first handle is linked to the second. -/
def Leads (t : LinkedTable) (i j : Nat) : Prop :=
  t.next? i = some (some j)

/-- Some entry of the table answers the key. -/
def Answered (t : LinkedTable) (key : AccessKey) : Prop :=
  ∃ i e, t.entry? i = some e ∧ e.Answers key

open List in
/-- What is asked of a table that holds entries by key, where several entries may answer one key. The links
of each slot lead along the entries of the slot, each once and in the order of the keys, and never back. A
listing gives each entry once. Insertion refuses exactly what is taken, and leaves the table then; addition
refuses nothing. A search has an answer, and goes on to exactly the entries that answer, each once. A handle
keeps its entry whatever is done later. -/
structure Faithful (t : LinkedTable) : Prop where
  inside : ∀ key, t.slotOf key < t.slots.size
  chains : ∀ (j : Nat) (head : Option Nat), t.slots[j]? = some head → ∃ chain, Threads t.next? head chain ∧
    chain.Nodup ∧ chain.Pairwise t.Precedes ∧ ∀ i, i ∈ chain ↔ ∃ e, t.entry? i = some e ∧ t.slotOf e.key = j
  acyclic : ∀ i, ¬ Relation.TransGen t.Leads i i
  lists : ∃ listed, t.toList? = some listed ∧ listed ~ t.entries
  refuses : ∀ key datum, t.Answered key ∧ key.isExtended = false →
    t.insert? key datum = some (.error .alreadyExists, t)
  inserts : ∀ key datum, ¬ (t.Answered key ∧ key.isExtended = false) →
    ∃ t', t.insert? key datum = some (.ok (), t') ∧ t'.entries = t.entries ++ [⟨key, datum⟩]
  adds : ∀ key datum, ∃ t', t.add? key datum = some (t.size, t') ∧ t'.entries = t.entries ++ [⟨key, datum⟩]
  finds : ∀ key, ∃ found, t.find? key = some found ∧ (found.isSome ↔ t.Answered key)
  reaches : ∀ key, ∃ handles, t.findAll? key = some handles ∧ handles.Nodup ∧
    ∀ i, i ∈ handles ↔ ∃ e, t.entry? i = some e ∧ e.Answers key
  keeps : ∀ i e changes t', t.entry? i = some e → t.after? changes = some t' →
    t'.entry? i = some ⟨e.key, changes.foldl (Change.onDatum i) e.datum⟩

/-- Links that lead along the chains of a table never lead back. -/
theorem Agrees.acyclic (agrees : t.Agrees s) (chained : s.Chained) (i : Nat) : ¬ Relation.TransGen t.Leads i i := by
  intro circle
  obtain ⟨_, onward, _⟩ := Relation.TransGen.head'_iff.mp circle
  obtain ⟨e, node⟩ := exists_node onward
  have known : s.entry? i = some e := by
    rw [← agrees.entry?, LinkedTable.entry?, node, Option.map_some]
  have listed := AccessTable.slots_slotOf chained.slotted e.key
  obtain ⟨front, back, split⟩ := List.append_of_mem ((chained.own _ _ listed i).mpr ⟨e, known, rfl⟩)
  obtain ⟨head, _, threads⟩ := agrees.threads _ _ listed
  have once := chained.once _ _ listed
  rw [split] at threads once
  exact (List.nodup_cons.mp (List.nodup_append.mp once).2.1).1 (threads.mem_of_transGen circle)

theorem Agrees.faithful (agrees : t.Agrees s) (built : s.Built) : t.Faithful := by
  have chained := built.chained
  have entry : t.entry? = s.entry? := funext agrees.entry?
  have slot : t.slotOf = s.slotOf := funext agrees.slotOf
  have precedes : t.Precedes = s.Precedes := by
    unfold Precedes AccessTable.Precedes
    rw [entry]
  have answered : ∀ key, t.Answered key ↔ (s.find? key).isSome := by
    intro key
    rw [chained.isSome_find?, Answered, entry]
  have grown : ∀ (t' : LinkedTable) key datum, t'.Agrees (s.add key datum).2 →
      t'.entries = t.entries ++ [⟨key, datum⟩] := by
    intro t' key datum agrees'
    rw [agrees'.entries, agrees.entries, AccessTable.entries_add, Array.toList_push]
  refine ⟨fun key => ?_, fun j head found => ?_, agrees.acyclic chained, ?_, fun key datum taken => ?_,
    fun key datum free => ?_, fun key datum => ?_, fun key => ?_, fun key => ?_,
    fun i e changes t' known run => ?_⟩
  · rw [slot, agrees.slots]
    exact AccessTable.slotOf_lt chained.slotted key
  · have inside : j < s.slots.size := agrees.slots ▸ (Array.getElem?_eq_some_iff.mp found).1
    have listed : s.slots[j]? = some s.slots[j] := Array.getElem?_eq_getElem inside
    obtain ⟨head', found', threads⟩ := agrees.threads j _ listed
    cases found.symm.trans found'
    rw [precedes, slot, entry]
    exact ⟨_, threads, chained.once j _ listed, chained.ordered j _ listed, chained.own j _ listed⟩
  · exact ⟨_, agrees.toList? chained, agrees.entries ▸ built.toList_perm⟩
  · have inserted := agrees.insert? chained key datum
    rwa [AccessTable.insert_eq, if_pos ⟨(answered key).mp taken.1, taken.2⟩] at inserted
  · have inserted := agrees.insert? chained key datum
    rw [answered] at free
    rw [AccessTable.insert_eq, if_neg free] at inserted
    obtain ⟨t', run, agrees'⟩ := inserted
    exact ⟨t', run, grown t' key datum agrees'⟩
  · obtain ⟨t', run, agrees'⟩ := agrees.add? chained key datum
    exact ⟨t', run, grown t' key datum agrees'⟩
  · exact ⟨_, agrees.find? chained key, (answered key).symm⟩
  · refine ⟨_, agrees.findAll? chained key, ?_⟩
    rw [chained.findAll_eq, entry]
    exact ⟨(chained.once _ _ (AccessTable.slots_slotOf chained.slotted key)).filter _, chained.mem_answering key⟩
  · rcases agrees.after? built changes with ⟨t'', run', agrees'⟩ | ⟨stuck, _⟩
    · cases run.symm.trans run'
      rw [agrees'.entry?]
      exact AccessTable.entry?_after (agrees.entry? i ▸ known) changes
    · cases run.symm.trans stuck

/-- Whatever is done to a new table, there is a table then, it is faithful, and it agrees with one that lists
its chains; unless the datum of a handle is to be changed that has no entry then. -/
theorem after_faithful (capacity : Nat) (changes : List Change) :
    (∃ t, (withCapacity capacity).after? changes = some t ∧ t.Faithful ∧
      t.Agrees ((AccessTable.withCapacity capacity).after changes)) ∨
    ∃ front handle change back t, changes = front ++ .modify handle change :: back ∧
      (withCapacity capacity).after? front = some t ∧ t.size ≤ handle := by
  have built := AccessTable.Built.withCapacity capacity
  rcases (Agrees.withCapacity capacity).after? built changes with ⟨t, run, agrees⟩ | ⟨_, front, c, back, t, split, run, misses⟩
  · exact .inl ⟨t, run, agrees.faithful (built.after changes), agrees⟩
  · obtain ⟨handle, change, rfl, outside⟩ := misses
    exact .inr ⟨front, handle, change, back, t, split, run, outside⟩

end LinkedTable

end CilPolicy
