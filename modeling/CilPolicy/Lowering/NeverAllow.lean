import CilPolicy.Lowering.Conditional

/-!
The check of rules that forbid access against the finished access tables.
-/

namespace CilPolicy

namespace NeverAllow

/-- The types of an entry's key come under the rule. A rule whose target is the source
itself needs one type on both sides. -/
def coversTypes (rule : NeverAllow) (sources targets : BitSet) : Bool :=
  let hit := sources.inter rule.source
  match rule.target with
  | some target => !hit.isEmpty && targets.meets target
  | none => hit.meets targets

end NeverAllow

namespace Lowering

/-- The permissions of a key's class that the rule forbids. -/
def forbidden? (l : Lowering) (rule : NeverAllow) (key : AccessKey) : Option ClassGrant :=
  rule.grants.find? fun g => l.classes.value? g.cls == some key.cls.toNat

def coversKey (l : Lowering) (rule : NeverAllow) (key : AccessKey) : Bool :=
  match l.typeMembers? key.source.toNat, l.typeMembers? key.target.toNat with
  | some sources, some targets => rule.coversTypes sources targets
  | _, _ => false

/-- The records of extended permissions that are allowed for the types and the class of
a key. -/
def allowedRecords (table : AccessTable) (key : AccessKey) : List AccessEntry :=
  table.toList.filter fun e =>
    e.key.kinds.overlap RuleKinds.extendedAllowed && e.key.place == key.place

/-- A record lets some of the numbers through. -/
def admitsAny (numbers : BitSet) (e : AccessEntry) : Bool :=
  match e.datum.extended with
  | none => false
  | some x => numbers.toList.any fun n => x.admits (n / 256 % 256) (n % 256)

/-- What is allowed for a key reaches the numbers. Without any record all numbers are
allowed. -/
def reaches (table : AccessTable) (key : AccessKey) (numbers : BitSet) : Bool :=
  let records := allowedRecords table key
  records.isEmpty || records.any (admitsAny numbers)

/-- The permissions that an entry allows and the rule forbids. -/
def breach? (l : Lowering) (rule : NeverAllow) (table : AccessTable) (e : AccessEntry) :
    Option ClassGrant := do
  if !e.key.kinds.overlap RuleKinds.allowed then none
  let g ← l.forbidden? rule e.key
  let overlap := e.datum.data &&& g.word
  if overlap == 0 || !l.coversKey rule e.key then none
  if (rule.numbers.map (reaches table e.key)).getD true then some { g with word := overlap } else none

/-- The names of the permissions in a word. -/
def permissionNames (l : Lowering) (g : ClassGrant) : List String :=
  match l.db.classes.value? g.cls with
  | none => []
  | some c => ((List.range 32).filter g.word.getLsbD).map (l.db.permissionName c)

/-- The line that shows what breaks a rule. -/
def breachText (l : Lowering) (key : AccessKey) (g : ClassGrant) : String :=
  "  allow " ++ l.typeName key.source.toNat ++ " " ++ l.typeName key.target.toNat ++ ":"
    ++ l.db.classes.nameOf g.cls ++ " \x7b " ++ " ".intercalate (l.permissionNames g) ++ " \x7d;"

/-- What breaks a rule in some tables. -/
def breaches (l : Lowering) (tables : List AccessTable) (rule : NeverAllow) : List String :=
  tables.flatMap fun table => table.toList.filterMap fun e =>
    (l.breach? rule table e).map (l.breachText e.key)

/-- Checks every rule; a broken one is shown with all that breaks it. -/
def checkNeverAllows (l : Lowering) (tables : List AccessTable) (rules : List NeverAllow) :
    Report Unit := do
  let broken := rules.filterMap fun rule =>
    match l.breaches tables rule with
    | [] => none
    | lines => some (rule.location, lines)
  broken.forM fun (location, lines) =>
    Report.error ("neverallow check failed" ++ location.text ++ "\n" ++ "\n".intercalate lines)
  Report.reject (broken.map fun (location, _) => .violation .neverAllow (some location))

end Lowering

end CilPolicy
