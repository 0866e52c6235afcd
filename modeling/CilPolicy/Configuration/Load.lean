import CilPolicy.Configuration.Decode
import CilPolicy.Files.System
import CilPolicy.Text.Utf8
import CilPolicy.Toml.Parse
import CilPolicy.Word

/-!
Where settings come from. Layers are laid over each other, each key by itself: the user's
file, the project's file, the local file beside it and, on top, environment variables.
-/

namespace CilPolicy

/-- The fields of a table; anything else has none. -/
def TomlValue.fields : TomlValue → TomlFields
  | .table _ fields => fields
  | _ => []

/-- The items of an array; anything else has none. -/
def TomlValue.items : TomlValue → List TomlValue
  | .list _ items => items
  | _ => []

/-- The value of a key, blank when there is none. -/
def TomlFields.valueOf (fields : TomlFields) (key : String) : TomlValue :=
  (fields.lookup key).getD .blank

mutual

/-- A value over an older one: tables are merged and anything else replaces it. -/
def TomlValue.over (old : TomlValue) : TomlValue → TomlValue
  | .table _ fields => .table .headed (TomlFields.over old.fields fields)
  | value => value

/-- The fields of a table over older ones. -/
def TomlFields.over (old : TomlFields) : List (String × TomlValue) → TomlFields
  | [] => old
  | (key, value) :: rest => TomlFields.over (old.set key (TomlValue.over (TomlFields.valueOf old key) value)) rest

end

/-- A step into a table or into an array. A number below zero counts from the end. -/
inductive PathStep where
  | key (name : String)
  | index (number : Int)
deriving DecidableEq, Repr

namespace PathStep

/-- The items with room for the numbered one, and its place. What is missing is blank. -/
def room (items : List TomlValue) (number : Int) : List TomlValue × Nat :=
  let blanks (n : Nat) : List TomlValue := List.replicate n .blank
  let size := items.length
  if 0 ≤ number then (items ++ blanks (number.toNat + 1 - size), number.toNat)
  else if number.natAbs ≤ size then (items, size - number.natAbs)
  else (blanks (number.natAbs - size) ++ items, 0)

/-- Lays a value over what stands at the end of a path. What is no table or no array on
the way gives way to one. -/
def overAt (value : TomlValue) : List PathStep → TomlValue → TomlValue
  | [], old => old.over value
  | key name :: path, old =>
    .table .headed (old.fields.set name (overAt value path (old.fields.valueOf name)))
  | index number :: path, old =>
    let (items, place) := room old.items number
    .list false (items.set place (overAt value path (items.getD place .blank)))

/-- A number in brackets, blanks around it allowed, up to the closing one. -/
def index? (chars : List Char) : Option (PathStep × List Char) := do
  let chars := chars.dropWhile Toml.isBlank
  let (negative, chars) := match chars with
    | '-' :: rest => (true, rest)
    | all => (false, all)
  let digits := chars.takeWhile Char.isDigit
  if digits.isEmpty then none
  let n ← Text.digits? 10 0 digits
  let number := if negative then -(n : Int) else n
  if !fitsLong number then none
  let ']' :: rest := (chars.drop digits.length).dropWhile Toml.isBlank | none
  return (index number, rest)

/-- A name of plain characters. -/
def key? (chars : List Char) : Option (PathStep × List Char) :=
  let name := chars.takeWhile Toml.isKeyChar
  if name.isEmpty then none else some (key (String.ofList name), chars.drop name.length)

/-- The steps behind the first one; the first argument bounds their number. -/
def tail? : Nat → List Char → Option (List PathStep)
  | _, [] => some []
  | 0, _ => none
  | n + 1, c :: rest => do
    let (step, rest) ← if c = '.' then key? rest else if c = '[' then index? rest else none
    return step :: (← tail? n rest)

/-- The path that a key of a layer stands for. A key that is no path stands for itself. -/
def ofKey (name : String) : List PathStep :=
  let path := do
    let (first, rest) ← key? name.toList
    return first :: (← tail? rest.length rest)
  path.getD [key name]

end PathStep

/-- Lays a layer over the older ones. -/
def TomlFields.overlay (old layer : TomlFields) : TomlFields :=
  (layer.foldl (fun root (name, value) => PathStep.overAt value (PathStep.ofKey name) root)
    (.table .headed old)).fields

/-- A whole number with a sign or without. -/
def Text.integer? (word : String) : Option Int :=
  let value := match word.toList with
    | '-' :: rest => if rest.isEmpty then none else (Text.digits? 10 0 rest).map fun n => -(n : Int)
    | all => (Text.unsigned? 10 all).map Int.ofNat
  value.filter fitsLong

/-- The word in small letters. The sign of the kelvin is a capital letter too; no other
letter outside ASCII has a small form within. -/
def Text.small (word : String) : String :=
  word.toLower.map fun c => if c = '\u212a' then 'k' else c

namespace Configuration

/-- What the text of an environment variable means. -/
def variableValue (word : String) : TomlValue :=
  if word.toLower = "true" then .flag true
  else if word.toLower = "false" then .flag false
  else match Text.integer? word with
    | some n => .integer n
    | none =>
      match Double.ofText? word with
      | some x => .real x
      | none => .text word

/-- The layer of the environment variables that carry the mark. Two underscores stand for
a dot, and the case of letters does not matter. -/
def variableLayer (mark : String) (entries : List (String × String)) : TomlFields :=
  let start := Text.small mark ++ "_"
  entries.filterMap fun (name, word) =>
    let name := Text.small name
    if start.isPrefixOf name then
      some (((name.drop start.length).toString).replace "__" ".", variableValue word)
    else none

/-- A single file: a wide integer hurts only where it is wanted. -/
def fileDialect : TomlDialect where
  wideNumbers := true
  adopts := false

/-- A layer: every integer is taken in, and dotted keys may define implied tables. -/
def layerDialect : TomlDialect where
  wideNumbers := false
  adopts := true

/-- The settings of one file. -/
def ofFile (path : String) (content : Except FileFault Bytes) : Except ConfigFault Configuration := do
  let bytes ← content.mapError (.unreadable path)
  let some source := Text.ofUtf8? bytes | throw (.unreadable path .notText)
  let root ← (Toml.parse fileDialect source).mapError fun f => .malformed path f.message
  let c ← (decode .strict root).mapError fun key => .malformed path s!"invalid value of {key}"
  c.validated

/-- The layer that a file holds. -/
def fileLayer (bytes : Bytes) : Except ConfigFault TomlFields :=
  let bytes := match bytes with
    | 0xEF :: 0xBB :: 0xBF :: rest => rest
    | all => all
  (Toml.parse layerDialect (Text.ofUtf8Lossy bytes)).mapError fun f => .conflict f.message

/-- The settings of all layers, seen from a directory. -/
def ofLayers (base : String) (layers : List TomlFields) : Except ConfigFault Configuration := do
  let root := layers.foldl TomlFields.overlay []
  let c ← (decode .loose root).mapError fun key => .conflict s!"invalid value of {key}"
  return (← c.validated).resolved base

/-- Where to look for layers. -/
structure Places where
  /-- The directory of the project. -/
  project : String
  /-- The user's own file, if there is a place for one. -/
  user : Option String := none
  /-- What the names of the environment variables start with. -/
  mark : String := "SECILC"
  /-- The variables with their values. -/
  entries : List (String × String) := []

/-- The files of the layers, lowest first. -/
def Places.files (p : Places) : List String :=
  p.user.toList ++ [Path.join p.project "secilc.toml", Path.join p.project "secilc.local.toml"]

section

variable {m : Type → Type} [Monad m] [FileSystem m]

/-- The files of the layers that are there. -/
def Places.existing (p : Places) : m (List String) :=
  p.files.filterM fun path => FileSystem.isFile path

/-- The settings of all layers. A file that cannot be read is passed over. -/
def load (p : Places) : m (Except ConfigFault Configuration) := do
  let contents ← (← p.existing).mapM FileSystem.read
  return do
    let layers ← (contents.filterMap Except.toOption).mapM fileLayer
    ofLayers p.project (layers ++ [variableLayer p.mark p.entries])

end

end Configuration

end CilPolicy
