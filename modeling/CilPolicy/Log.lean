/-!
Messages for the user. A log keeps the messages whose severity its level lets
through; errors always pass, warnings from `warn` on, notes at `info` only.
-/

namespace CilPolicy

/-- How grave a message is. -/
inductive Severity where
  | error
  | warn
  | info
deriving DecidableEq, Repr, Inhabited

namespace Severity

def name : Severity → String
  | error => "error"
  | warn => "warn"
  | info => "info"

/-- Place in the order from the gravest on. -/
def rank : Severity → Nat
  | error => 0
  | warn => 1
  | info => 2

/-- Reads a level without regard to the case of ASCII letters. -/
def ofName? (word : String) : Option Severity :=
  match word.toLower with
  | "error" => some error
  | "warn" | "warning" => some warn
  | "info" => some info
  | _ => none

/-- What is said of a word that names no level. -/
def unknownName (word : String) : String :=
  s!"unknown log level '{word.toLower}'"

/-- A message of the severity passes at the level. -/
def passes (severity level : Severity) : Bool :=
  severity.rank ≤ level.rank

/-- The one that lets more through. -/
def max (a b : Severity) : Severity :=
  if a.passes b then b else a

end Severity

/-- A severity and a text. -/
structure Message where
  severity : Severity
  text : String
deriving DecidableEq, Repr

/-- The messages that pass at the level, in order. -/
def Message.visible (level : Severity) (messages : List Message) : List Message :=
  messages.filter (·.severity.passes level)

/-- A level and the messages kept so far. -/
structure Log where
  level : Severity := .error
  messages : List Message := []
deriving Inhabited

namespace Log

def enabled (log : Log) (severity : Severity) : Bool :=
  severity.passes log.level

/-- Keeps the message if it passes. -/
def add (log : Log) (message : Message) : Log :=
  if log.enabled message.severity then { log with messages := log.messages ++ [message] } else log

/-- Forgets the messages and keeps the level. -/
def clear (log : Log) : Log :=
  { log with messages := [] }

/-- Some kept message of the severity has the needle in its text. -/
def contains (log : Log) (severity : Severity) (needle : String) : Bool :=
  log.messages.any fun m => m.severity == severity && m.text.contains needle

end Log

end CilPolicy
