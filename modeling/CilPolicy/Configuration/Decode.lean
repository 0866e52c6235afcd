import CilPolicy.Configuration.Basic
import CilPolicy.Toml.Value
import CilPolicy.Word

/-!
Settings from TOML values. A single file is read strictly: a value has the kind that its
key asks for. Values from several layers are read loosely, since an environment variable
has no kind of its own.
-/

namespace CilPolicy

/-- How values of each kind are read. -/
structure Reading where
  flag : TomlValue → Option Bool
  number : TomlValue → Option Nat
  text : TomlValue → Option String
  /-- One word of a few: the word itself, or a table with it as its only key. -/
  word : TomlValue → Option String
  /-- A date in place of a section leaves everything unset. -/
  emptyDates : Bool

namespace Reading

/-- Every value has the kind that is asked for. -/
def strict : Reading where
  flag
    | .flag b => some b
    | _ => none
  number
    | .integer n => if 0 ≤ n ∧ n < wordBound then some n.toNat else none
    | _ => none
  text
    | .text s => some s
    | _ => none
  word
    | .text s => some s
    | .table _ [(key, .table _ [])] | .table _ [(key, .list _ [])] => some key
    | _ => none
  emptyDates := true

def looseFlag (word : String) : Option Bool :=
  match word.toLower with
  | "1" | "true" | "on" | "yes" => some true
  | "0" | "false" | "off" | "no" => some false
  | _ => none

def looseNumber (word : String) : Option Nat :=
  match word.toLower with
  | "true" | "on" | "yes" => some 1
  | "false" | "off" | "no" => some 0
  | _ => Text.decimal? longBound word

/-- Scalars of one kind stand for those of another where that makes sense. -/
def loose : Reading where
  flag
    | .flag b => some b
    | .integer n => some (n ≠ 0)
    | .real x => some !x.isZero
    | .text s | .moment s => looseFlag s
    | _ => none
  number v :=
    (match v with
    | .flag b => some b.toNat
    | .integer n => if 0 ≤ n then some n.toNat else none
    | .real x => some (x.clamp longBound)
    | .text s | .moment s => looseNumber s
    | _ => none).filter (· < wordBound)
  text
    | .flag b => some (toString b)
    | .integer n => some (toString n)
    | .real x => some x.text
    | .text s | .moment s => some s
    | _ => none
  word
    | .text s | .moment s => some s
    | .table _ [(key, _)] => some key
    | _ => none
  emptyDates := false

/-- A value that may be left blank. -/
def unlessBlank (read : TomlValue → Option α) : TomlValue → Option (Option α)
  | .blank => some none
  | value => (read value).map some

end Reading

/-- The values of a section by key. A list gives them in the order of the keys. -/
def Reading.section? (r : Reading) (keys : List String) :
    TomlValue → Option (String → Option TomlValue)
  | .moment _ => if r.emptyDates then some fun _ => none else none
  | .table _ fields => some fun key => fields.lookup key
  | .list _ items => some fun key => items[keys.idxOf key]?
  | _ => none

namespace Configuration

def compilerKeys : List String :=
  ["policy_version", "target", "mls", "handle_unknown", "qualified_names", "disable_neverallow",
    "multiple_decls", "expand_attributes"]

def outputKeys : List String :=
  ["policy_file", "file_contexts"]

def logKeys : List String :=
  ["level"]

/-- The values of a section of the document; a missing section has none. -/
def sectionOf (r : Reading) (root : TomlFields) (name : String) (keys : List String) :
    Except String (String → Option TomlValue) :=
  match root.lookup name with
  | none => .ok fun _ => none
  | some value =>
    match r.section? keys value with
    | some values => .ok values
    | none => .error name

/-- The value of a key, or what holds without it. -/
def valueOf (values : String → Option TomlValue) (key : String) (read : TomlValue → Option α)
    (fallback : α) : Except String α :=
  match values key with
  | none => .ok fallback
  | some value =>
    match read value with
    | some a => .ok a
    | none => .error key

/-- The settings of a document. A fault names the key with the wrong value; keys that are
not known do no harm. -/
def decode (r : Reading) (root : TomlFields) : Except String Configuration := do
  let values ← sectionOf r root "compiler" compilerKeys
  let options : CompilerOptions := {
    version := ← valueOf values "policy_version" (fun v => (r.number v).map FormatVersion.mk) .latest
    target := ← valueOf values "target" (fun v => (r.word v).bind Target.ofName?) .selinux
    overrides := {
      mls := ← valueOf values "mls" (Reading.unlessBlank r.flag) none
      handleUnknown := ← valueOf values "handle_unknown"
        (Reading.unlessBlank fun v => (r.word v).bind HandleUnknown.ofName?) none }
    qualifiedNames := ← valueOf values "qualified_names" r.flag false
    disableNeverAllow := ← valueOf values "disable_neverallow" r.flag false
    multipleDecls := ← valueOf values "multiple_decls" r.flag false
    expandAttributes := ← valueOf values "expand_attributes" r.flag false }
  let values ← sectionOf r root "output" outputKeys
  let policyFile ← valueOf values "policy_file" (Reading.unlessBlank r.text) none
  let fileContexts ← valueOf values "file_contexts" r.text "file_contexts"
  let values ← sectionOf r root "log" logKeys
  let level ← valueOf values "level" (fun v => (r.word v).bind levelOf?) .error
  return { options, policyFile, fileContexts, level }
where
  /-- Levels in settings have one spelling. -/
  levelOf? (word : String) : Option Severity :=
    [Severity.error, .warn, .info].find? (·.name == word)

end Configuration

end CilPolicy
