import CilPolicy.Database.Registry

/-!
# Looking up declarations

How the updates of a registry change what is found under a number.
-/

namespace CilPolicy.Registry

variable {α : Type} {r : Registry α}

theorem mem_indexed {id : Id} {d : Declared α} : (id, d) ∈ r.indexed ↔ r.get? id = some d := by
  rw [indexed, toList, get?, List.mem_map]
  constructor
  · rintro ⟨⟨e, i⟩, hmem, heq⟩
    cases heq
    rw [← Array.getElem?_toList]
    exact List.mem_zipIdx_iff_getElem?.mp hmem
  · intro h
    rw [← Array.getElem?_toList] at h
    exact ⟨(d, id), List.mem_zipIdx_iff_getElem?.mpr h, rfl⟩

theorem mem_toList_of_get? {id : Id} {d : Declared α} (h : r.get? id = some d) : d ∈ r.toList :=
  Array.mem_toList_iff.mpr (Array.mem_of_getElem? h)

theorem exists_get?_of_mem {d : Declared α} (h : d ∈ r.toList) : ∃ id, r.get? id = some d := by
  obtain ⟨id, hid⟩ := List.getElem?_of_mem h
  exact ⟨id, Array.getElem?_toList.symm.trans hid⟩

theorem value?_eq_some {id : Id} {v : α} :
    r.value? id = some v ↔ ∃ d, r.get? id = some d ∧ d.value = v := by
  rw [value?, Option.map_eq_some_iff]

theorem lt_of_value? {id : Nat} {v : α} (h : r.value? id = some v) : id < r.size := by
  obtain ⟨d, hd, _⟩ := value?_eq_some.mp h
  exact (Array.getElem?_eq_some_iff.mp hd).1

theorem exists_value? {id : Nat} (h : id < r.size) : ∃ v, r.value? id = some v :=
  ⟨_, value?_eq_some.mpr ⟨_, Array.getElem?_eq_getElem h, rfl⟩⟩

theorem test_iff {id : Id} {p : α → Bool} :
    r.test id p = true ↔ ∃ v, r.value? id = some v ∧ p v = true := by
  rw [test, Option.any_eq_true]

@[simp] theorem size_modify (id : Id) (f : α → α) : (r.modify id f).size = r.size :=
  Array.size_modify

theorem value?_modify (id : Id) (f : α → α) (n : Id) :
    (r.modify id f).value? n = if id = n then (r.value? n).map f else r.value? n := by
  simp only [value?, get?, modify, Array.getElem?_modify]
  split
  · cases r.entries[n]? <;> rfl
  · rfl

/-- A new declaration takes the next number and leaves the others as they are. -/
theorem value?_declare {r' : Registry α} {name : String} {location : Location} {v : α}
    (h : r.declare? name location v = some r') (n : Id) :
    r'.value? n = if n = r.size then some v else r.value? n := by
  rw [declare?] at h
  split at h
  · cases h
  · cases h
    simp only [value?, get?, size, Array.getElem?_push]
    by_cases hn : n = r.entries.size <;> simp [hn]

theorem size_declare {r' : Registry α} {name : String} {location : Location} {v : α}
    (h : r.declare? name location v = some r') : r'.size = r.size + 1 := by
  rw [declare?] at h
  split at h
  · cases h
  · cases h
    exact Array.size_push _

/-- Every declaration has the property. -/
def All (r : Registry α) (p : α → Prop) : Prop :=
  ∀ id v, r.value? id = some v → p v

theorem all_empty (p : α → Prop) : ({} : Registry α).All p := by
  intro id v h
  cases h

theorem All.declare {p : α → Prop} {r' : Registry α} {name : String} {location : Location} {v : α}
    (all : r.All p) (new : p v) (h : r.declare? name location v = some r') : r'.All p := by
  intro n w hw
  rw [value?_declare h] at hw
  split at hw
  · cases hw
    exact new
  · exact all n w hw

theorem All.modify {p : α → Prop} {id : Id} {f : α → α} (all : r.All p)
    (changed : ∀ v, r.value? id = some v → p v → p (f v)) : (r.modify id f).All p := by
  intro n w hw
  rw [value?_modify] at hw
  split at hw
  · rename_i same
    subst same
    obtain ⟨v, hv, heq⟩ := Option.map_eq_some_iff.mp hw
    exact heq ▸ changed v hv (all id v hv)
  · exact all n w hw

/-- The registries have the same declarations as far as `f` sees them. -/
def SameUnder (f : α → β) (r r' : Registry α) : Prop :=
  ∀ id, (r.value? id).map f = (r'.value? id).map f

theorem sameUnder_refl {β : Type} (f : α → β) (r : Registry α) : SameUnder f r r := fun _ => rfl

theorem SameUnder.modify {β : Type} {f : α → β} {r' : Registry α} (same : SameUnder f r r') {id : Id}
    {change : α → α} (kept : ∀ v, f (change v) = f v) : SameUnder f (r.modify id change) r' := by
  intro n
  rw [← same n, value?_modify]
  split
  · cases r.value? n with
    | none => rfl
    | some v => exact congrArg some (kept v)
  · rfl

theorem SameUnder.exists_left {β : Type} {f : α → β} {r' : Registry α} (same : SameUnder f r r')
    {id : Id} {v' : α} (h : r'.value? id = some v') : ∃ v, r.value? id = some v ∧ f v = f v' := by
  have heq := same id
  rw [h] at heq
  exact Option.map_eq_some_iff.mp heq

theorem SameUnder.exists_right {β : Type} {f : α → β} {r' : Registry α} (same : SameUnder f r r')
    {id : Id} {v : α} (h : r.value? id = some v) : ∃ v', r'.value? id = some v' ∧ f v' = f v := by
  have heq := same id
  rw [h] at heq
  exact Option.map_eq_some_iff.mp heq.symm

theorem lt_of_find? {name : String} {id : Nat} (h : r.find? name = some id) : id < r.size :=
  (Array.findIdx?_eq_some_iff_getElem.mp h).1

end CilPolicy.Registry
