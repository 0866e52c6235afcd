import CilPolicy.Proofs.Access.Table
import CilPolicy.Proofs.Kernel.Bytes
import CilPolicy.Proofs.Kernel.FilenameTransition

/-!
# The records of a policy file

For each kind of record, what its fields tell when they are written after one another. A
record is seen as the file holds it: the types of the object role, the absence of a common
that an empty name stands for, and the mark of a rule in force are not in it.
-/

namespace CilPolicy

open Bytes

/-! ### Sets, levels and contexts -/

/-- The set is in its one form, and its numbers are words. -/
structure BitSet.Fits (s : BitSet) : Prop where
  wellFormed : s.WellFormed
  high : s.highBit < wordBound

theorem BitSet.fits_empty : BitSet.Fits ∅ :=
  ⟨wellFormed_empty, by decide⟩

theorem BitSet.reveals_encode {a b : BitSet} (left : a.Fits) (right : b.Fits) :
    Reveals a.encode b.encode (a = b) := by
  have starts : ∀ {s : BitSet}, s.Fits → ∀ c ∈ s.chunks, c.start < wordBound := by
    intro s fits c hc
    have := start_le_highBit fits.wellFormed.canonical hc
    have := fits.wellFormed.highBit
    have := fits.high
    omega
  have counts : ∀ {s : BitSet}, s.Fits → s.chunks.length < wordBound := by
    intro s fits
    have := length_le_endOf fits.wellFormed.canonical
    have := fits.wellFormed.highBit
    have := fits.high
    omega
  have chunks : ∀ c ∈ a.chunks, ∀ d ∈ b.chunks, Reveals (encodeChunk c) (encodeChunk d) (c = d) := by
    intro c hc d hd
    have words := reveals_u64 c.word.isLt d.word.isLt
    refine ((reveals_u32 (starts left c hc) (starts right d hd)).append fun _ => words).imp ?_
    rintro ⟨start, word⟩
    cases c
    cases d
    simp_all [BitVec.toNat_eq]
  have size := reveals_u32 (show 64 < wordBound by decide) (show 64 < wordBound by decide)
  have high := reveals_u32 left.high right.high
  have count := reveals_u32 (counts left) (counts right)
  refine (((size.append fun _ => high).append fun _ => count).append
    fun told => reveals_items told.2 chunks).imp ?_
  rintro ⟨⟨⟨_, high⟩, _⟩, chunks⟩
  cases a
  cases b
  simp_all

structure Level.Fits (level : Level) : Prop where
  sens : level.sens < wordBound
  cats : level.cats.Fits

theorem Level.reveals_encode {a b : Level} (left : a.Fits) (right : b.Fits) :
    Reveals a.encode b.encode (a = b) := by
  have sens := reveals_u32 left.sens right.sens
  refine (sens.append fun _ => BitSet.reveals_encode left.cats right.cats).imp ?_
  rintro ⟨sens, cats⟩
  cases a
  cases b
  simp_all

structure LevelRange.Fits (r : LevelRange) : Prop where
  low : r.low.Fits
  high : r.high.Fits

/-- A range with one level and a range with two differ in their first word. -/
theorem LevelRange.reveals_encode {a b : LevelRange} (left : a.Fits) (right : b.Fits) :
    Reveals a.encode b.encode (a = b) := by
  have one_two : ∀ {x y : Bytes} {fact : Prop}, Reveals (u32 1 ++ x) (u32 2 ++ y) fact := by
    intro x y fact r s same
    cases same
  have two_one : ∀ {x y : Bytes} {fact : Prop}, Reveals (u32 2 ++ x) (u32 1 ++ y) fact := by
    intro x y fact r s same
    cases same
  have number : ∀ n, n < 3 → Reveals (u32 n) (u32 n) (n = n) := by
    intro n hn
    have fits : n < wordBound := Nat.lt_trans hn (by decide)
    exact reveals_u32 fits fits
  have lowSens := reveals_u32 left.low.sens right.low.sens
  have highSens := reveals_u32 left.high.sens right.high.sens
  have lowCats := BitSet.reveals_encode left.low.cats right.low.cats
  have highCats := BitSet.reveals_encode left.high.cats right.high.cats
  obtain ⟨⟨al, ac⟩, ah⟩ := a
  obtain ⟨⟨bl, bc⟩, bh⟩ := b
  simp only [LevelRange.encode]
  by_cases single : (⟨al, ac⟩ : Level) = ah
  · by_cases single' : (⟨bl, bc⟩ : Level) = bh
    · rw [if_pos single, if_pos single']
      refine (((number 1 (by decide)).append fun _ => lowSens).append fun _ => lowCats).imp ?_
      rintro ⟨⟨_, sens⟩, cats⟩
      cases sens
      cases cats
      rw [← single, ← single']
    · rw [if_pos single, if_neg single']
      simp only [List.append_assoc]
      exact one_two
  · by_cases single' : (⟨bl, bc⟩ : Level) = bh
    · rw [if_neg single, if_pos single']
      simp only [List.append_assoc]
      exact two_one
    · rw [if_neg single, if_neg single']
      refine (((((number 2 (by decide)).append fun _ => lowSens).append fun _ => highSens).append
        fun _ => lowCats).append fun _ => highCats).imp ?_
      rintro ⟨⟨⟨⟨_, sens⟩, sens'⟩, cats⟩, cats'⟩
      cases ah
      cases bh
      simp_all

structure Context.Fits (c : Context) : Prop where
  user : c.user < wordBound
  role : c.role < wordBound
  type : c.type < wordBound
  range : c.range.Fits

theorem Context.reveals_encode {a b : Context} (left : a.Fits) (right : b.Fits) :
    Reveals a.encode b.encode (a = b) := by
  have user := reveals_u32 left.user right.user
  have role := reveals_u32 left.role right.role
  have type := reveals_u32 left.type right.type
  have range := LevelRange.reveals_encode left.range right.range
  refine (((user.append fun _ => role).append fun _ => type).append fun _ => range).imp ?_
  rintro ⟨⟨⟨user, role⟩, type⟩, range⟩
  cases a
  cases b
  simp_all

/-! ### Symbols -/

namespace SymbolTable

variable {α β : Type}

/-- The table comes of its operations; its counts, its names and its data fit. -/
structure Fits (fits : α → Prop) (t : SymbolTable α) : Prop where
  built : t.Built
  primaries : t.primaries < wordBound
  size : t.size < wordBound
  names : ∀ symbol ∈ t.toList, TextFits symbol.1
  data : ∀ symbol ∈ t.toList, fits symbol.2

/-- The number of values, and every name with its datum as the file holds it. -/
def records (record : α → β) (t : SymbolTable α) : Nat × List (String × β) :=
  (t.primaries, t.toList.map fun symbol => (symbol.1, record symbol.2))

theorem Fits.length_eq {fits : α → Prop} {t u : SymbolTable α} (left : t.Fits fits)
    (right : u.Fits fits) (sizes : t.size = u.size) : t.toList.length = u.toList.length := by
  rw [left.built.length_toList, right.built.length_toList, sizes]

theorem reveals_encodeSymbols {fits : α → Prop} {record : α → β} {symbol : String → α → Bytes}
    {t u : SymbolTable α} (left : t.Fits fits) (right : u.Fits fits)
    (symbols : ∀ {n m : String} {c d : α}, TextFits n → TextFits m → fits c → fits d →
      Reveals (symbol n c) (symbol m d) (n = m ∧ record c = record d)) :
    Reveals (KernelPolicy.encodeSymbols t symbol) (KernelPolicy.encodeSymbols u symbol)
      (t.records record = u.records record) := by
  have primaries := reveals_u32 left.primaries right.primaries
  have sizes := reveals_u32 left.size right.size
  have named : ∀ a ∈ t.toList, ∀ b ∈ u.toList,
      Reveals (symbol a.1 a.2) (symbol b.1 b.2) ((a.1, record a.2) = (b.1, record b.2)) := by
    intro a ha b hb
    refine (symbols (left.names a ha) (right.names b hb) (left.data a ha) (right.data b hb)).imp ?_
    rintro ⟨name, datum⟩
    rw [name, datum]
  refine ((primaries.append fun _ => sizes).append fun told =>
    reveals_flatMap (fun a => (a.1, record a.2)) (fun b => (b.1, record b.2))
      (left.length_eq right told.2) named).imp ?_
  rintro ⟨⟨primaries, _⟩, symbols⟩
  exact Prod.ext primaries symbols

end SymbolTable

namespace KernelPolicy

/-- A table of permissions; their values are words. -/
abbrev PermissionsFit (t : SymbolTable Nat) : Prop :=
  t.Fits (· < wordBound)

/-- Permissions are read once their number is known. -/
theorem reveals_encodePermissions {t u : SymbolTable Nat} (left : PermissionsFit t)
    (right : PermissionsFit u) (sizes : t.size = u.size) :
    Reveals (encodePermissions t) (encodePermissions u) (t.toList = u.toList) := by
  refine reveals_items (left.length_eq right sizes) ?_
  intro a ha b hb
  have length := reveals_textLength (left.names a ha) (right.names b hb)
  have value := reveals_u32 (left.data a ha) (right.data b hb)
  refine ((length.append fun _ => value).append fun told => reveals_ofString told.1).imp ?_
  rintro ⟨⟨_, value⟩, name⟩
  exact Prod.ext name value

end KernelPolicy

structure CommonDatum.Fits (c : CommonDatum) : Prop where
  value : c.value < wordBound
  permissions : KernelPolicy.PermissionsFit c.permissions

def CommonDatum.record (c : CommonDatum) : Nat × Nat × List (String × Nat) :=
  (c.value, c.permissions.primaries, c.permissions.toList)

/-- A class as the file holds it. A class without a common and one whose common has an
empty name are one record, and defaults that the version does not know are absent. -/
structure ClassRecord where
  value : Nat
  common : String
  permissions : List (String × Nat)
  permissionCount : Nat
  defaultUser : Option DefaultObject
  defaultRole : Option DefaultObject
  defaultType : Option DefaultObject
  defaultRange : Option DefaultRange
deriving DecidableEq, Repr

structure ClassDatum.Fits (c : ClassDatum) : Prop where
  value : c.value < wordBound
  common : TextFits (c.common.getD "")
  permissions : KernelPolicy.PermissionsFit c.permissions
  permissionCount : c.permissionCount < wordBound

/-- The default range as a version knows it. -/
def DefaultRange.known (v : FormatVersion) (choice : Option DefaultRange) : Option DefaultRange :=
  if choice = some .glblub && !v.supports .glblub then none else choice

def ClassDatum.record (v : FormatVersion) (c : ClassDatum) : ClassRecord where
  value := c.value
  common := c.common.getD ""
  permissions := c.permissions.toList
  permissionCount := c.permissionCount
  defaultUser := if v.supports .objectDefaults then c.defaultUser else none
  defaultRole := if v.supports .objectDefaults then c.defaultRole else none
  defaultType := if v.supports .defaultType then c.defaultType else none
  defaultRange := if v.supports .objectDefaults then DefaultRange.known v c.defaultRange else none

structure RoleDatum.Fits (r : RoleDatum) : Prop where
  value : r.value < wordBound
  bounds : r.bounds < wordBound
  dominates : r.dominates.Fits
  types : r.types.Fits

/-- The types of the object role are not in its record. -/
def RoleDatum.record (r : RoleDatum) : RoleDatum :=
  if r.value = KernelPolicy.objectRoleValue then { r with types := ∅ } else r

structure TypeDatum.Fits (t : TypeDatum) : Prop where
  value : t.value < wordBound
  bounds : t.bounds < wordBound

structure UserDatum.Fits (u : UserDatum) : Prop where
  value : u.value < wordBound
  bounds : u.bounds < wordBound
  roles : u.roles.Fits
  range : u.range.Fits
  defaultLevel : u.defaultLevel.Fits

def BooleanDatum.Fits (b : BooleanDatum) : Prop :=
  b.value < wordBound

def SensitivityDatum.Fits (s : SensitivityDatum) : Prop :=
  s.level.Fits

def CategoryDatum.Fits (c : CategoryDatum) : Prop :=
  c.value < wordBound

namespace KernelPolicy

variable {n m : String}

theorem reveals_encodeCommon {c d : CommonDatum} (name : TextFits n) (name' : TextFits m)
    (left : c.Fits) (right : d.Fits) :
    Reveals (encodeCommon n c) (encodeCommon m d) (n = m ∧ c.record = d.record) := by
  have length := reveals_textLength name name'
  have value := reveals_u32 left.value right.value
  have primaries := reveals_u32 left.permissions.primaries right.permissions.primaries
  have size := reveals_u32 left.permissions.size right.permissions.size
  refine (((((length.append fun _ => value).append fun _ => primaries).append fun _ => size).append
    fun told => reveals_ofString told.1.1.1).append fun told =>
      reveals_encodePermissions left.permissions right.permissions told.1.2).imp ?_
  rintro ⟨⟨⟨⟨⟨_, value⟩, primaries⟩, _⟩, name⟩, permissions⟩
  refine ⟨name, ?_⟩
  rw [CommonDatum.record, CommonDatum.record, value, primaries, permissions]

theorem optional_object_lt (choice : Option DefaultObject) :
    optional DefaultObject.number choice < wordBound := by
  rcases choice with _ | _ | _ <;> decide

theorem optional_object_injective {a b : Option DefaultObject}
    (same : optional DefaultObject.number a = optional DefaultObject.number b) : a = b := by
  rcases a with _ | _ | _ <;> rcases b with _ | _ | _ <;>
    simp_all [optional, DefaultObject.number]

theorem defaultRangeNumber_eq (v : FormatVersion) (choice : Option DefaultRange) :
    defaultRangeNumber v choice = optional DefaultRange.number (DefaultRange.known v choice) := by
  rw [defaultRangeNumber, DefaultRange.known]
  split <;> rfl

theorem optional_range_lt (choice : Option DefaultRange) :
    optional DefaultRange.number choice < wordBound := by
  rcases choice with _ | range
  · decide
  · cases range <;> decide

theorem optional_range_injective {a b : Option DefaultRange}
    (same : optional DefaultRange.number a = optional DefaultRange.number b) : a = b := by
  rcases a with _ | a <;> rcases b with _ | b
  · rfl
  · cases b <;> cases same
  · cases a <;> cases same
  · cases a <;> cases b <;> simp_all [optional, DefaultRange.number]

theorem reveals_encodeClass (v : FormatVersion) {c d : ClassDatum} (name : TextFits n)
    (name' : TextFits m) (left : c.Fits) (right : d.Fits) :
    Reveals (encodeClass v n c) (encodeClass v m d) (n = m ∧ c.record v = d.record v) := by
  have zero := reveals_u32 (show 0 < wordBound by decide) (show 0 < wordBound by decide)
  have length := reveals_textLength name name'
  have commonLength := reveals_textLength left.common right.common
  have value := reveals_u32 left.value right.value
  have count := reveals_u32 left.permissionCount right.permissionCount
  have size := reveals_u32 left.permissions.size right.permissions.size
  have object : ∀ a b : Option DefaultObject,
      Reveals (u32 (optional DefaultObject.number a)) (u32 (optional DefaultObject.number b))
        (a = b) :=
    fun a b => (reveals_u32 (optional_object_lt a) (optional_object_lt b)).imp
      optional_object_injective
  have range : Reveals (u32 (defaultRangeNumber v c.defaultRange))
      (u32 (defaultRangeNumber v d.defaultRange))
      (DefaultRange.known v c.defaultRange = DefaultRange.known v d.defaultRange) := by
    rw [defaultRangeNumber_eq, defaultRangeNumber_eq]
    exact (reveals_u32 (optional_range_lt _) (optional_range_lt _)).imp optional_range_injective
  have front := ((((length.append fun _ => commonLength).append fun _ => value).append fun _ =>
    count).append fun _ => size).append fun _ => zero
  have texts := (front.append fun told => reveals_ofString told.1.1.1.1.1).append fun told =>
    reveals_ofString told.1.1.1.1.1.2
  have permissions := (texts.append fun told =>
    reveals_encodePermissions left.permissions right.permissions told.1.1.1.2).append fun _ => zero
  have objects := permissions.append fun _ => Reveals.gated (v.supports .objectDefaults)
    fun _ => ((object c.defaultUser d.defaultUser).append fun _ =>
      object c.defaultRole d.defaultRole).append fun _ => range
  refine (objects.append fun _ => Reveals.gated (v.supports .defaultType)
    fun _ => object c.defaultType d.defaultType).imp ?_
  rintro ⟨⟨⟨⟨⟨⟨⟨⟨⟨⟨⟨_, _⟩, value⟩, count⟩, _⟩, _⟩, name⟩, common⟩, permissions⟩, _⟩, objects⟩, type⟩
  refine ⟨name, ?_⟩
  cases hobjects : v.supports .objectDefaults <;> cases htype : v.supports .defaultType <;>
    simp_all [ClassDatum.record]

theorem reveals_encodeRole {r q : RoleDatum} (name : TextFits n) (name' : TextFits m)
    (left : r.Fits) (right : q.Fits) :
    Reveals (encodeRole n r) (encodeRole m q) (n = m ∧ r.record = q.record) := by
  have written : ∀ {r : RoleDatum}, r.Fits →
      BitSet.Fits (if r.value = objectRoleValue then (∅ : BitSet) else r.types) := by
    intro r fits
    split
    · exact BitSet.fits_empty
    · exact fits.types
  have length := reveals_textLength name name'
  have value := reveals_u32 left.value right.value
  have bounds := reveals_u32 left.bounds right.bounds
  have dominates := BitSet.reveals_encode left.dominates right.dominates
  have types := BitSet.reveals_encode (written left) (written right)
  refine (((((length.append fun _ => value).append fun _ => bounds).append fun told =>
    reveals_ofString told.1.1).append fun _ => dominates).append fun _ => types).imp ?_
  rintro ⟨⟨⟨⟨⟨_, value⟩, bounds⟩, name⟩, dominates⟩, types⟩
  refine ⟨name, ?_⟩
  obtain ⟨rv, rb, rd, rt⟩ := r
  obtain ⟨qv, qb, qd, qt⟩ := q
  by_cases object : qv = objectRoleValue <;> simp_all [RoleDatum.record]

theorem properties_lt (flavor : TypeFlavor) : flavor.properties < wordBound := by
  cases flavor <;> decide

theorem properties_injective {a b : TypeFlavor} (same : a.properties = b.properties) : a = b := by
  cases a <;> cases b <;> simp_all [TypeFlavor.properties]

theorem reveals_encodeType {t u : TypeDatum} (name : TextFits n) (name' : TextFits m)
    (left : t.Fits) (right : u.Fits) :
    Reveals (encodeType n t) (encodeType m u) (n = m ∧ id t = id u) := by
  have length := reveals_textLength name name'
  have value := reveals_u32 left.value right.value
  have flavor := (reveals_u32 (properties_lt t.flavor) (properties_lt u.flavor)).imp
    properties_injective
  have bounds := reveals_u32 left.bounds right.bounds
  refine ((((length.append fun _ => value).append fun _ => flavor).append fun _ => bounds).append
    fun told => reveals_ofString told.1.1.1).imp ?_
  rintro ⟨⟨⟨⟨_, value⟩, flavor⟩, bounds⟩, name⟩
  cases t
  cases u
  simp_all

theorem reveals_encodeUser {u w : UserDatum} (name : TextFits n) (name' : TextFits m)
    (left : u.Fits) (right : w.Fits) :
    Reveals (encodeUser n u) (encodeUser m w) (n = m ∧ id u = id w) := by
  have length := reveals_textLength name name'
  have value := reveals_u32 left.value right.value
  have bounds := reveals_u32 left.bounds right.bounds
  have roles := BitSet.reveals_encode left.roles right.roles
  have range := LevelRange.reveals_encode left.range right.range
  have level := Level.reveals_encode left.defaultLevel right.defaultLevel
  have front := ((length.append fun _ => value).append fun _ => bounds).append fun told =>
    reveals_ofString told.1.1
  refine (((front.append fun _ => roles).append fun _ => range).append fun _ => level).imp ?_
  rintro ⟨⟨⟨⟨⟨⟨_, value⟩, bounds⟩, name⟩, roles⟩, range⟩, level⟩
  cases u
  cases w
  simp_all

theorem reveals_flag (a b : Bool) : Reveals (u32 a.toNat) (u32 b.toNat) (a = b) := by
  have lt : ∀ c : Bool, c.toNat < wordBound := by decide
  have injective : ∀ a b : Bool, a.toNat = b.toNat → a = b := by decide
  exact (reveals_u32 (lt a) (lt b)).imp (injective a b)

theorem reveals_encodeBoolean {b c : BooleanDatum} (name : TextFits n) (name' : TextFits m)
    (left : b.Fits) (right : c.Fits) :
    Reveals (encodeBoolean n b) (encodeBoolean m c) (n = m ∧ id b = id c) := by
  have value := reveals_u32 left right
  have state := reveals_flag b.state c.state
  refine ((value.append fun _ => state).append fun _ => reveals_encodeText name name').imp ?_
  rintro ⟨⟨value, state⟩, name⟩
  cases b
  cases c
  simp_all

theorem reveals_encodeSensitivity {s t : SensitivityDatum} (name : TextFits n) (name' : TextFits m)
    (left : s.Fits) (right : t.Fits) :
    Reveals (encodeSensitivity n s) (encodeSensitivity m t) (n = m ∧ id s = id t) := by
  have length := reveals_textLength name name'
  have isAlias := reveals_flag s.isAlias t.isAlias
  have level := Level.reveals_encode left right
  refine (((length.append fun _ => isAlias).append fun told =>
    reveals_ofString told.1).append fun _ => level).imp ?_
  rintro ⟨⟨⟨_, isAlias⟩, name⟩, level⟩
  cases s
  cases t
  simp_all

theorem reveals_encodeCategory {c d : CategoryDatum} (name : TextFits n) (name' : TextFits m)
    (left : c.Fits) (right : d.Fits) :
    Reveals (encodeCategory n c) (encodeCategory m d) (n = m ∧ id c = id d) := by
  have length := reveals_textLength name name'
  have value := reveals_u32 left right
  have isAlias := reveals_flag c.isAlias d.isAlias
  refine (((length.append fun _ => value).append fun _ => isAlias).append fun told =>
    reveals_ofString told.1.1).imp ?_
  rintro ⟨⟨⟨_, value⟩, isAlias⟩, name⟩
  cases c
  cases d
  simp_all

end KernelPolicy

end CilPolicy
