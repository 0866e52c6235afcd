import CilPolicy.Double

/-!
Values of a TOML document. A table knows how it was opened, because that decides what may
be added to it: an inline table takes nothing more, a table with a header of its own is
not opened again, and a table is extended by dotted keys if dotted keys made it.
-/

namespace CilPolicy

/-- How a table was opened. -/
inductive TableShape where
  /-- Written in braces. -/
  | inline
  /-- By a header of its own. -/
  | headed
  /-- On the way to a header. -/
  | implied
  /-- By a dotted key. -/
  | dotted
deriving DecidableEq, Repr, Inhabited

/-- Where readers of TOML differ. -/
structure TomlDialect where
  /-- Integers of more than 64 bits, up to 128, are let through. -/
  wideNumbers : Bool
  /-- A dotted key may take over a table that headers only implied. -/
  adopts : Bool
deriving DecidableEq, Repr

/-- A TOML value. -/
inductive TomlValue where
  /-- A place of an array that holds nothing yet. -/
  | blank
  | text (value : String)
  | integer (value : Int)
  | real (value : Double)
  /-- An integer of more than 64 bits. -/
  | excess
  | flag (value : Bool)
  /-- A date, a time or both, in one spelling. -/
  | moment (value : String)
  /-- An array; it grows when headers in double brackets made it. -/
  | list (grows : Bool) (items : List TomlValue)
  | table (shape : TableShape) (fields : List (String × TomlValue))
deriving Repr, Inhabited

/-- The fields of a table in the order of their keys' first use. -/
abbrev TomlFields := List (String × TomlValue)

namespace TomlFields

/-- Gives a key its value; a new key goes to the end. -/
def set : TomlFields → String → TomlValue → TomlFields
  | [], key, value => [(key, value)]
  | (k, v) :: rest, key, value => if k = key then (k, value) :: rest else (k, v) :: set rest key value

/-- How a path goes: along headers, or along dotted keys, which take over the tables that
headers only implied or leave them as they are. -/
inductive PathKind where
  | header
  | keys (adopts : Bool)
deriving DecidableEq

/-- The shape of a table that a path has opened. -/
def PathKind.opened : PathKind → TableShape
  | header => .implied
  | keys _ => .dotted

/-- The shape that a table has once a path has gone through it. A path goes through no
inline table, and a dotted one through no table with a header. -/
def PathKind.through : PathKind → TableShape → Option TableShape
  | _, .inline => none
  | keys _, .headed => none
  | keys true, .implied => some .dotted
  | _, shape => some shape

/-- Changes the table at the end of a path, opening the missing ones on the way. -/
def modifyAt (kind : PathKind) (change : TableShape → TomlFields → Option TomlFields) :
    List String → TableShape → TomlFields → Option TomlFields
  | [], shape, fields => change shape fields
  | key :: path, _, fields =>
    match fields.lookup key with
    | none =>
      (modifyAt kind change path kind.opened []).map fun inner =>
        set fields key (.table kind.opened inner)
    | some (.table shape inner) =>
      (kind.through shape).bind fun shape =>
        (modifyAt kind change path shape inner).map fun inner => set fields key (.table shape inner)
    | some (.list true items) =>
      match items.getLast? with
      | some (.table shape inner) =>
        (modifyAt kind change path shape inner).map fun inner =>
          set fields key (.list true (items.dropLast ++ [.table shape inner]))
      | _ => none
    | some _ => none

/-- Adds a value under a dotted key; a key is given once only. -/
def insert (dialect : TomlDialect) (fields : TomlFields) (path : List String) (key : String)
    (value : TomlValue) : Option TomlFields :=
  modifyAt (.keys dialect.adopts) (fun shape inner =>
    if (!path.isEmpty && shape != .dotted) || (inner.lookup key).isSome then none
    else some (set inner key value)) path .headed fields

/-- Opens the table of a header. -/
def openTable (fields : TomlFields) (path : List String) (key : String) : Option TomlFields :=
  modifyAt .header (fun _ inner =>
    match inner.lookup key with
    | none => some (set inner key (.table .headed []))
    | some (.table .implied own) => some (set inner key (.table .headed own))
    | some _ => none) path .headed fields

/-- Opens the next table of an array of tables. -/
def openItem (fields : TomlFields) (path : List String) (key : String) : Option TomlFields :=
  modifyAt .header (fun _ inner =>
    match inner.lookup key with
    | none => some (set inner key (.list true [.table .headed []]))
    | some (.list true items) => some (set inner key (.list true (items ++ [.table .headed []])))
    | some _ => none) path .headed fields

end TomlFields

end CilPolicy
