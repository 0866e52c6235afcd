import CilPolicy.Kernel.Encoding
import CilPolicy.Proofs.Report
import Mathlib.Algebra.Group.Nat.Defs

/-!
# Fields that tell themselves apart

Two pieces of a file reveal a fact when they agree, whatever follows each of them, only
if the fact holds, and then what follows agrees as well. A sequence of pieces reveals
what its parts reveal, each part under what the parts before it told: that is how the
length of a text, written before it, makes the text readable.
-/

namespace CilPolicy

/-- Whatever follows them, the two pieces begin one file only if the fact holds, and
then the same follows both. -/
def Reveals (x y : Bytes) (fact : Prop) : Prop :=
  ∀ r s : Bytes, x ++ r = y ++ s → fact ∧ r = s

namespace Reveals

variable {x y x' y' : Bytes} {fact fact' : Prop}

theorem imp (told : Reveals x y fact) (so : fact → fact') : Reveals x y fact' := by
  intro r s same
  obtain ⟨hfact, rest⟩ := told r s same
  exact ⟨so hfact, rest⟩

theorem of_eq (told : Reveals x y fact) (same : x = y) : fact :=
  (told [] [] (by rw [same])).1

/-- The second pieces are read knowing what the first pieces told. -/
theorem append (first : Reveals x y fact) (second : fact → Reveals x' y' fact') :
    Reveals (x ++ x') (y ++ y') (fact ∧ fact') := by
  intro r s same
  rw [List.append_assoc, List.append_assoc] at same
  obtain ⟨hfact, rest⟩ := first _ _ same
  obtain ⟨hfact', rest⟩ := second hfact r s rest
  exact ⟨⟨hfact, hfact'⟩, rest⟩

theorem nil : Reveals [] [] True := by
  intro r s same
  exact ⟨trivial, same⟩

/-- Pieces of one length are read as they are. -/
theorem of_length (same : x.length = y.length) : Reveals x y (x = y) := by
  intro r s h
  exact List.append_inj h same

/-- A part that both files have or both lack. -/
theorem gated (present : Bool) (told : present = true → Reveals x y fact) :
    Reveals (if present then x else []) (if present then y else []) (present = true → fact) := by
  cases present with
  | false => exact nil.imp fun _ h => by cases h
  | true => exact (told rfl).imp fun h _ => h

end Reveals

namespace Bytes

theorem length_littleEndian (width n : Nat) : (littleEndian width n).length = width := by
  induction width generalizing n with
  | zero => rfl
  | succ width ih => rw [littleEndian, List.length_cons, ih]

/-- A number that is too wide is cut off. -/
theorem toNat_littleEndian_mod (width n : Nat) : toNat (littleEndian width n) = n % 256 ^ width := by
  induction width generalizing n with
  | zero => rw [littleEndian, toNat, Nat.pow_zero, Nat.mod_one]
  | succ width ih =>
    have low : (UInt8.ofNat n).toNat = n % 256 := UInt8.toNat_ofNat'
    rw [littleEndian, toNat, ih, low, Nat.pow_succ', Nat.mod_mul]

theorem toNat_littleEndian {width n : Nat} (fits : n < 256 ^ width) :
    toNat (littleEndian width n) = n := by
  rw [toNat_littleEndian_mod, Nat.mod_eq_of_lt fits]

theorem reveals_littleEndian {width a b : Nat} (left : a < 256 ^ width) (right : b < 256 ^ width) :
    Reveals (littleEndian width a) (littleEndian width b) (a = b) := by
  have lengths : (littleEndian width a).length = (littleEndian width b).length := by
    rw [length_littleEndian, length_littleEndian]
  refine (Reveals.of_length lengths).imp fun same => ?_
  rw [← toNat_littleEndian left, ← toNat_littleEndian right, same]

theorem reveals_u32 {a b : Nat} (left : a < wordBound) (right : b < wordBound) :
    Reveals (u32 a) (u32 b) (a = b) :=
  reveals_littleEndian left right

theorem reveals_u64 {a b : Nat} (left : a < longBound) (right : b < longBound) :
    Reveals (u64 a) (u64 b) (a = b) :=
  reveals_littleEndian left right

/-- The bytes of an array from a position on, after those in front. -/
theorem toList_loop (bytes : ByteArray) (i : Nat) (front : List UInt8) :
    ByteArray.toList.loop bytes i front = front.reverse ++ bytes.data.toList.drop i := by
  induction h : bytes.size - i generalizing i front with
  | zero =>
    have beyond : ¬ i < bytes.size := by omega
    rw [ByteArray.toList.loop, if_neg beyond, List.drop_eq_nil_of_le, List.append_nil]
    rw [Array.length_toList]
    exact Nat.le_of_not_lt beyond
  | succ n ih =>
    have inside : i < bytes.size := by omega
    have inside' : i < bytes.data.toList.length := by rwa [Array.length_toList]
    have here : bytes.get! i = bytes.data.toList[i] := by
      change bytes.data[i]! = _
      rw [getElem!_pos bytes.data i inside]
      rfl
    rw [ByteArray.toList.loop, if_pos inside, ih (i + 1) _ (by omega),
      List.drop_eq_getElem_cons inside', here]
    simp

theorem ofString_eq (s : String) : ofString s = s.toByteArray.data.toList := by
  rw [ofString, ByteArray.toList, toList_loop]
  rfl

theorem length_ofString (s : String) : (ofString s).length = s.utf8ByteSize := by
  rw [ofString_eq, Array.length_toList]
  exact String.size_toByteArray

theorem ofString_injective {s t : String} (same : ofString s = ofString t) : s = t := by
  rw [ofString_eq, ofString_eq] at same
  exact String.toByteArray_inj.mp (ByteArray.ext (Array.toList_inj.mp same))

/-- The length of a text is written whole. -/
def TextFits (s : String) : Prop :=
  s.utf8ByteSize < wordBound

instance (s : String) : Decidable (TextFits s) :=
  inferInstanceAs (Decidable (s.utf8ByteSize < wordBound))

theorem reveals_textLength {s t : String} (left : TextFits s) (right : TextFits t) :
    Reveals (textLength s) (textLength t) (s.utf8ByteSize = t.utf8ByteSize) :=
  reveals_u32 left right

/-- A text is read once its length is known. -/
theorem reveals_ofString {s t : String} (same : s.utf8ByteSize = t.utf8ByteSize) :
    Reveals (ofString s) (ofString t) (s = t) := by
  have lengths : (ofString s).length = (ofString t).length := by
    rw [length_ofString, length_ofString, same]
  exact (Reveals.of_length lengths).imp ofString_injective

end Bytes

open Bytes

theorem reveals_encodeText {s t : String} (left : TextFits s) (right : TextFits t) :
    Reveals (encodeText s) (encodeText t) (s = t) :=
  ((reveals_textLength left right).append reveals_ofString).imp And.right

section Lists

variable {ε α β : Type} {xs ys : List α}

/-- Lists of one length are read item by item, also when writing an item can fail. -/
theorem reveals_mapM (view view' : α → β) {write write' : α → Except ε Bytes} {pieces pieces' : List Bytes}
    (run : xs.mapM write = .ok pieces) (run' : ys.mapM write' = .ok pieces')
    (lengths : xs.length = ys.length)
    (items : ∀ a ∈ xs, ∀ b ∈ ys, ∀ x y, write a = .ok x → write' b = .ok y →
      Reveals x y (view a = view' b)) :
    Reveals pieces.flatten pieces'.flatten (xs.map view = ys.map view') := by
  induction xs generalizing ys pieces pieces' with
  | nil =>
    obtain rfl := List.eq_nil_of_length_eq_zero lengths.symm
    rw [List.mapM_nil] at run run'
    cases run
    cases run'
    exact Reveals.nil.imp fun _ => rfl
  | cons a xs ih =>
    cases ys with
    | nil => cases lengths
    | cons b ys =>
      rw [List.mapM_cons, bind_eq_ok] at run run'
      obtain ⟨x, first, run⟩ := run
      obtain ⟨y, first', run'⟩ := run'
      obtain ⟨rest, others, done⟩ := bind_eq_ok.mp run
      obtain ⟨rest', others', done'⟩ := bind_eq_ok.mp run'
      cases done
      cases done'
      have heads := items a List.mem_cons_self b List.mem_cons_self x y first first'
      have tails := ih others others' (Nat.succ.inj lengths) fun a ha b hb =>
        items a (List.mem_cons_of_mem _ ha) b (List.mem_cons_of_mem _ hb)
      rw [List.flatten_cons, List.flatten_cons]
      refine (heads.append fun _ => tails).imp ?_
      rintro ⟨head, tail⟩
      rw [List.map_cons, List.map_cons, head, tail]

/-- Lists of one length are read item by item. -/
theorem reveals_flatMap (view view' : α → β) {item item' : α → Bytes} (lengths : xs.length = ys.length)
    (items : ∀ a ∈ xs, ∀ b ∈ ys, Reveals (item a) (item' b) (view a = view' b)) :
    Reveals (xs.flatMap item) (ys.flatMap item') (xs.map view = ys.map view') := by
  have run : xs.mapM (fun a => (pure (item a) : Except KernelError Bytes)) = .ok (xs.map item) :=
    List.mapM_pure
  have run' : ys.mapM (fun a => (pure (item' a) : Except KernelError Bytes)) = .ok (ys.map item') :=
    List.mapM_pure
  rw [List.flatMap_def, List.flatMap_def]
  refine reveals_mapM view view' run run' lengths ?_
  intro a ha b hb x y hx hy
  cases hx
  cases hy
  exact items a ha b hb

theorem reveals_items {item : α → Bytes} (lengths : xs.length = ys.length)
    (items : ∀ a ∈ xs, ∀ b ∈ ys, Reveals (item a) (item b) (a = b)) :
    Reveals (xs.flatMap item) (ys.flatMap item) (xs = ys) := by
  have told : Reveals (xs.flatMap item) (ys.flatMap item) (xs.map id = ys.map id) :=
    reveals_flatMap id id lengths items
  simpa using told

/-- The number of a list's items is written whole, and so is every item. -/
structure ListFits (fits : α → Prop) (xs : List α) : Prop where
  count : xs.length < wordBound
  items : ∀ a ∈ xs, fits a

theorem reveals_encodeList (view view' : α → β) {fits : α → Prop} {item item' : α → Bytes}
    (left : ListFits fits xs) (right : ListFits fits ys)
    (items : ∀ a b, fits a → fits b → Reveals (item a) (item' b) (view a = view' b)) :
    Reveals (encodeList item xs) (encodeList item' ys) (xs.map view = ys.map view') := by
  have counts := reveals_u32 left.count right.count
  refine (counts.append fun lengths => reveals_flatMap view view' lengths ?_).imp
    And.right
  intro a ha b hb
  exact items a b (left.items a ha) (right.items b hb)

theorem reveals_list {fits : α → Prop} {item : α → Bytes} (left : ListFits fits xs)
    (right : ListFits fits ys) (items : ∀ a b, fits a → fits b → Reveals (item a) (item b) (a = b)) :
    Reveals (encodeList item xs) (encodeList item ys) (xs = ys) := by
  have told : Reveals (encodeList item xs) (encodeList item ys) (xs.map id = ys.map id) :=
    reveals_encodeList id id left right items
  simpa using told

end Lists

end CilPolicy
