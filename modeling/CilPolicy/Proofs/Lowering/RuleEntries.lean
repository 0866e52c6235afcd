import CilPolicy.Proofs.Access.Search
import CilPolicy.Proofs.Lowering.TypeRules

/-!
# Rules under keys of their own

Gathered rules have one word and one set of numbers for each key. So no entry of theirs is refused
by the table that holds them, and the table has one entry for each key of a word.
-/

namespace CilPolicy

theorem map_fst_upsert {κ ν : Type} [DecidableEq κ] (key : κ) (change : Option ν → ν) (l : List (κ × ν)) :
    (upsert key change l).map (·.1) =
      if key ∈ l.map (·.1) then l.map (·.1) else l.map (·.1) ++ [key] := by
  induction l with
  | nil => rfl
  | cons head rest ih =>
    obtain ⟨k, v⟩ := head
    rw [upsert]
    split
    · rename_i same
      simp [same]
    · rename_i other
      rw [List.map_cons, ih]
      simp only [List.map_cons, List.mem_cons, Ne.symm other, false_or]
      split <;> rfl

theorem nodup_upsert {κ ν : Type} [DecidableEq κ] {key : κ} {change : Option ν → ν} {l : List (κ × ν)}
    (nodup : (l.map (·.1)).Nodup) : ((upsert key change l).map (·.1)).Nodup := by
  rw [map_fst_upsert]
  split
  · exact nodup
  · rename_i fresh
    exact List.concat_eq_append ▸ nodup.concat fresh

namespace AccessRules

/-- No key has two words or two sets of numbers. -/
structure Once (r : AccessRules) : Prop where
  words : (r.words.map (·.1)).Nodup
  extended : (r.extended.map (·.1)).Nodup

variable {r : AccessRules} {key : AccessKey}

theorem once_empty : Once {} :=
  ⟨.nil, .nil⟩

theorem Once.grant (once : r.Once) (permissions : BitVec 32) : (r.grant key permissions).Once :=
  ⟨nodup_upsert once.words, once.extended⟩

theorem Once.extend (once : r.Once) (numbers : BitSet) : (r.extend key numbers).Once :=
  ⟨once.words, nodup_upsert once.extended⟩

theorem Once.setResult (once : r.Once) (result : Nat) (fresh : r.word? key = none) :
    (r.setResult key result).Once := by
  refine ⟨?_, once.extended⟩
  rw [AccessRules.setResult, List.map_append, List.map_singleton, ← List.concat_eq_append]
  refine once.words.concat fun listed => ?_
  obtain ⟨⟨_, word⟩, mem, rfl⟩ := List.mem_map.mp listed
  have differ := List.lookup_eq_none_iff.mp fresh _ mem
  simp at differ

end AccessRules

namespace Lowering

variable {l : Lowering} {location : Location}

theorem addRule_once {t : RuleTables} {r : PlacedRule} (once : t.access.Once) :
    (l.addRule t r).table.access.Once := by
  rw [addRule_access]
  cases r.rule with
  | access kind source target permissions =>
    exact addAccess_keeps AccessRules.Once (fun _ _ word _ held => held.grant word) once
  | extended kind source target permissions =>
    exact addExtended_keeps AccessRules.Once (fun _ _ numbers _ held => held.extend numbers) once
  | type kind source target cls result =>
    exact addTypeRule_keeps AccessRules.Once (fun _ _ value _ _ fresh held => held.setResult value fresh) once
  | _ => exact once

theorem rules_once : l.rules.table.access.Once :=
  Step.gather_invariant (fun t : RuleTables => t.access.Once) (fun _ _ => addRule_once) AccessRules.once_empty

end Lowering

/-! ### Tables of entries -/

namespace AccessRules

variable {r : AccessRules}

/-- An entry that answers the key of a word has that key. -/
theorem KindsFit.key_eq_of_answers (fit : r.KindsFit) {key k : AccessKey} {word w : BitVec 32}
    (hk : (k, w) ∈ r.words) (hkey : (key, word) ∈ r.words)
    (answers : AccessEntry.Answers ⟨k, .ofWord w⟩ key) : k = key := by
  obtain ⟨source, target, cls, kinds⟩ := answers
  have single := RuleKinds.words_subset (fit.words key word hkey)
  rw [RuleKinds.plain_of_mem _ single] at kinds
  have same := (RuleKinds.overlap_iff single (RuleKinds.words_subset (fit.words k w hk))).mp kinds
  cases k
  cases key
  simp_all

theorem KindsFit.isExtended_of_mem (fit : r.KindsFit) {e : AccessEntry}
    (he : e ∈ r.extended.flatMap fun (key, numbers) =>
      (ExtendedSet.records numbers).map fun x => (⟨key, .ofExtended x⟩ : AccessEntry)) :
    e.key.isExtended = true := by
  obtain ⟨⟨key, numbers⟩, hnumbers, hx⟩ := List.mem_flatMap.mp he
  obtain ⟨x, _, rfl⟩ := List.mem_map.mp hx
  exact RuleKinds.extended_of_number _ (fit.extended key numbers hnumbers)

/-- No entry answers the key of a word behind it. -/
theorem Once.pairwise_toEntries (once : r.Once) (fit : r.KindsFit) :
    r.toEntries.Pairwise fun f e => e.key.isExtended = false → ¬ f.Answers e.key := by
  refine List.pairwise_append.mpr ⟨?_, ?_, ?_⟩
  · refine List.pairwise_map.mpr ((List.pairwise_map.mp once.words).imp_of_mem ?_)
    rintro ⟨k, w⟩ ⟨key, word⟩ hk hkey differ _ answers
    exact differ (fit.key_eq_of_answers hk hkey answers)
  · refine List.Pairwise.imp_of_mem ?_ (List.pairwise_of_forall fun _ _ => trivial)
    rintro f e - he - plain
    exact Bool.noConfusion ((fit.isExtended_of_mem he).symm.trans plain)
  · intro f _ e he plain
    exact Bool.noConfusion ((fit.isExtended_of_mem he).symm.trans plain)

/-- The table of the rules is made, and lists their entries. -/
theorem Once.exists_accessTable (once : r.Once) (fit : r.KindsFit) :
    ∃ table, Lowering.accessTable r = .ok table ∧ table.toList.Perm r.toEntries := by
  have start := AccessTable.Built.withCapacity r.size
  obtain ⟨table, run, built⟩ := start.exists_inserted
    (fun e (_ : e ∈ r.toEntries) _ f hf => by
      rw [start.toList_perm.mem_iff] at hf
      cases hf)
    (once.pairwise_toEntries fit)
  refine ⟨table, run, ?_⟩
  rw [← (Lowering.accessTable_spec run).2]
  exact built.toList_perm

end AccessRules

end CilPolicy
