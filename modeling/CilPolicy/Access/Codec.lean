import CilPolicy.Access.Table
import CilPolicy.Kernel.Bytes
import CilPolicy.Word

/-!
The binary form of access tables. Tagged records hold one entry each; a record of
words, which older versions have, may hold several and is only read.
-/

namespace CilPolicy

/-- One entry as a tagged record. -/
def AccessEntry.encode (v : FormatVersion) (e : AccessEntry) : Except KernelError Bytes := do
  if e.key.isExtended && !v.supports .extendedPermissions then
    throw (.version v.number .extendedRules)
  let front := Bytes.u16 e.key.source.toNat ++ Bytes.u16 e.key.target.toNat
    ++ Bytes.u16 e.key.cls.toNat ++ Bytes.u16 e.key.kinds.plain.toNat
  if e.key.isExtended then
    match e.datum.extended with
    | some x =>
      return front ++ Bytes.u8 x.form.toNat ++ Bytes.u8 x.driver.toNat
        ++ Bytes.littleEndian 32 x.bits.toNat
    | none => throw (.access .missingPermissions)
  else
    return front ++ Bytes.u32 e.datum.data.toNat

namespace AccessTable

/-- The number of entries, then every entry. -/
def encode (v : FormatVersion) (t : AccessTable) : Except KernelError Bytes := do
  if !v.supports .taggedRecords then throw (.version v.number .recordsReadOnly)
  let records ← t.toList.mapM (AccessEntry.encode v)
  return Bytes.u32 t.size ++ records.flatten

/-- The entries of one record, and the fault found after the last of them. -/
structure RecordRead where
  entries : List AccessEntry
  fault : Option KernelError

/-- A number that has to fit in sixteen bits. -/
def narrow (part : KeyPart) (value : Nat) : ByteReader UInt16 :=
  if value < 65536 then pure (UInt16.ofNat value)
  else throw (.access (.truncated part value))

/-- Gives each kind of the mask the next datum. -/
def assign (key : AccessKey) (mask : RuleKinds) (count : Nat) :
    List RuleKinds → List Nat → RecordRead
  | [], [] => ⟨[], none⟩
  | [], unused => ⟨[], some (.access (.longRecord (count - unused.length) count))⟩
  | kind :: kinds, words =>
    if mask.overlap kind then
      match words with
      | [] => ⟨[], some (.access (.shortRecord count))⟩
      | w :: rest =>
        let read := assign key mask count kinds rest
        ⟨⟨{ key with kinds := kind ||| key.kinds }, .ofWord (BitVec.ofNat 32 w)⟩ :: read.entries,
          read.fault⟩
    else assign key mask count kinds words

/-- A record of words: source, target, class, a mask of kinds, then one datum a kind. -/
def readWords : ByteReader RecordRead := do
  let count ← ByteReader.u32
  if count < 5 || 8 < count then throw (.access (.itemCount count))
  let words ← ByteReader.replicate ByteReader.u32 count
  match words with
  | source :: target :: cls :: value :: data =>
    let source ← narrow .source source
    let target ← narrow .target target
    let cls ← narrow .cls cls
    let mask : RuleKinds := BitVec.ofNat 16 value
    let enabled : RuleKinds := if value.testBit 31 then RuleKinds.enabled else 0
    if !mask.overlap (RuleKinds.vectors ||| RuleKinds.results) then throw (.access .nullEntry)
    if mask.overlap RuleKinds.vectors && mask.overlap RuleKinds.results then
      throw (.access .mixedKinds)
    return assign ⟨source, target, cls, enabled⟩ mask count RuleKinds.recordOrder data
  | _ => throw (.access (.itemCount count))

/-- A tagged record with one entry. -/
def readTagged (v : FormatVersion) : ByteReader RecordRead := do
  let source ← ByteReader.u16
  let target ← ByteReader.u16
  let cls ← ByteReader.u16
  let kinds ← ByteReader.u16
  let key : AccessKey :=
    ⟨UInt16.ofNat source, UInt16.ofNat target, UInt16.ofNat cls, BitVec.ofNat 16 kinds⟩
  if RuleKinds.recordOrder.countP key.kinds.overlap ≠ 1 then throw (.access .kindCount)
  if key.isExtended then
    if !v.supports .extendedPermissions then throw (.access (.noExtended v.number))
    let form ← ByteReader.u8
    let driver ← ByteReader.u8
    let words ← ByteReader.replicate ByteReader.u32 8
    let bits := words.foldr (fun w acc => w + wordBound * acc) 0
    let x : ExtendedSet := ⟨UInt8.ofNat form, UInt8.ofNat driver, BitVec.ofNat 256 bits⟩
    return ⟨[⟨key, .ofExtended x⟩], none⟩
  else
    let word ← ByteReader.u32
    return ⟨[⟨key, .ofWord (BitVec.ofNat 32 word)⟩], none⟩

def readRecord (v : FormatVersion) : ByteReader RecordRead :=
  if v.supports .taggedRecords then readTagged v else readWords

/-- Adds the entries of a record; a key that is taken makes the file invalid. -/
def addRecord (t : AccessTable) (record : RecordRead) : Except KernelError AccessTable := do
  let t ← record.entries.foldlM (fun t e =>
    match t.insert e.key e.datum with
    | .error .alreadyExists => .error (.access .duplicate)
    | other => other) t
  match record.fault with
  | some fault => throw fault
  | none => return t

/-- That many records, each added to the table. -/
def readRecords (v : FormatVersion) : Nat → AccessTable → ByteReader AccessTable
  | 0, t => pure t
  | n + 1, t => do
    let record ← readRecord v
    match t.addRecord record with
    | .ok t => readRecords v n t
    | .error fault => throw fault

/-- A table of at least one record. -/
def read (v : FormatVersion) : ByteReader AccessTable := do
  let count ← ByteReader.u32
  if count = 0 then throw (.access .emptyTable)
  readRecords v count (withCapacity count)

end AccessTable

end CilPolicy
