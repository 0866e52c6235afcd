import CilPolicy.CommandLine.Arguments
import CilPolicy.Configuration.Load
import CilPolicy.Kernel.Header

/-!
The commands. Each reads its settings and files through a file system and leaves text for
the user; a failure is shown with all that led to it.
-/

namespace CilPolicy.CommandLine

/-! ### Two columns in a frame of box-drawing characters -/

/-- A text filled up with blanks. -/
def fill (width : Nat) (text : String) : String :=
  text ++ String.ofList (List.replicate (width - text.length) ' ')

/-- A rule of the frame: its ends, the mark between the columns and the line itself. -/
def rule (left middle right line : Char) (first second : Nat) : String :=
  String.ofList ([left] ++ List.replicate (first + 2) line ++ [middle]
    ++ List.replicate (second + 2) line ++ [right])

/-- The rows in a frame, a dashed rule between two rows. -/
def table (rows : List (String × String)) : String :=
  let width (f : String × String → String) : Nat := (rows.map fun r => (f r).length).foldl max 0
  let first := width (·.1)
  let second := width (·.2)
  let lines := rows.map fun (key, value) =>
    "│ " ++ fill first key ++ " ┆ " ++ fill second value ++ " │"
  let body := ("\n" ++ rule '├' '┼' '┤' '╌' first second ++ "\n").intercalate lines
  rule '╭' '┬' '╮' '─' first second ++ "\n" ++ body ++ "\n" ++ rule '╰' '┴' '╯' '─' first second

/-! ### Runs -/

/-- What surrounds a run. -/
structure Environment where
  /-- The working directory. -/
  directory : String
  /-- The variables with their values. -/
  entries : List (String × String) := []
  /-- The architecture of the processor. -/
  machine : String := "unknown"

/-- What a run leaves. -/
structure Outcome where
  code : Nat := 0
  stdout : String := ""
  stderr : String := ""

/-- A failure: what was being done, and the causes behind it. -/
structure Failure where
  causes : List String

/-- A message with every further line indented. -/
def indented (indent : Nat) (message : String) : String :=
  ("\n" ++ String.ofList (List.replicate indent ' ')).intercalate (message.splitOn "\n")

/-- The failure as the user sees it. More than one cause are numbered. -/
def Failure.text (f : Failure) : String :=
  let cause (i : Nat) (message : String) : String :=
    let number := toString i
    String.ofList (List.replicate (5 - number.length) ' ') ++ number ++ ": " ++ indented 7 message
  "Error: " ++ f.causes.headD "" ++ match f.causes.tail with
    | [] => "\n"
    | [message] => "\n\nCaused by:\n    " ++ indented 4 message ++ "\n"
    | messages => "\n\nCaused by:\n" ++ "\n".intercalate (messages.mapIdx cause) ++ "\n"

/-- A message of the compiler as the user sees it. -/
def messageLine (m : Message) : String :=
  match m.severity with
  | .error => s!"✗ {m.text}\n"
  | .warn => s!"⚠ {m.text}\n"
  | .info => s!"{m.text}\n"

def version : String := "0.3.0"

def versionText (machine : String) : String :=
  "\n".intercalate [
    s!"{Command.root.word} {version}",
    "",
    "SELinux Common Intermediate Language policy compiler.",
    "",
    "Build info:",
    s!"  Policy versions: {FormatVersion.oldest}-{FormatVersion.newest}",
    "  Targets:         selinux, xen",
    s!"  Arch:            {machine}",
    "  OS:              linux",
    ""]

def usageText : String :=
  "Usage: secilc <version|compile|check|info|stats|config show> [OPTIONS] [PATHS]\n"

/-- The statistics as a document. -/
def statsDocument (stats : List (String × StatValue)) : Document :=
  .record (stats.map fun (key, value) => (key, match value with
    | .number n => n
    | .flag b => b
    | .word s => s))

/-- The statistics as rows, sorted by name. -/
def statsRows (stats : List (String × StatValue)) : List (String × String) :=
  (stats.mergeSort fun a b => a.1 ≤ b.1).map fun (key, value) =>
    (key.replace "_" " ", match value with
      | .number n => toString n
      | .flag b => toString b
      | .word s => s)

def headerDocument (h : Header) : Document :=
  .record [("target", h.target.signature), ("version", h.version), ("mls", h.mls),
    ("handle_unknown", h.handleUnknown.name), ("symbol_tables", h.symbolTables),
    ("object_contexts", h.objectLists), ("capabilities", .texts h.capabilities)]

def headerRows (h : Header) : List (String × String) :=
  [("Target", h.target.signature), ("Version", toString h.version),
    ("MLS", if h.mls then "yes" else "no"), ("Handle unknown", h.handleUnknown.name),
    ("Symbol tables", toString h.symbolTables), ("Object contexts", toString h.objectLists),
    ("Capabilities", if h.capabilities.isEmpty then "none" else ", ".intercalate h.capabilities)]

/-- The settings in words, with the files they come from. -/
def configurationText (c : Configuration) (files : List String) : String :=
  let o := c.options
  let unset (value : Option String) : String := value.getD "from policy"
  let sources := if files.isEmpty then ["(built-in defaults)"] else files
  "\n".intercalate ([
    "secilc Configuration",
    "====================",
    "",
    "Sources:"] ++ sources.map ("  " ++ ·) ++ [
    "",
    "Compiler:",
    s!"  Policy version: {o.version.number}",
    s!"  Target: {o.target.name}",
    s!"  MLS: {unset (o.overrides.mls.map toString)}",
    s!"  Handle unknown: {unset (o.overrides.handleUnknown.map HandleUnknown.name)}",
    s!"  Qualified names: {o.qualifiedNames}",
    s!"  Disable neverallow: {o.disableNeverAllow}",
    s!"  Multiple declarations: {o.multipleDecls}",
    s!"  Expand attributes: {o.expandAttributes}",
    "",
    "Output:",
    s!"  Policy file: {c.policyPath}",
    s!"  File contexts: {c.fileContexts}",
    "",
    "Log:",
    s!"  Level: {c.level.name}",
    ""])

/-- The user's own settings file. -/
def Environment.userFile? (env : Environment) : Option String :=
  let home := (env.entries.lookup "HOME").filter (!·.isEmpty)
  let settings := (env.entries.lookup "XDG_CONFIG_HOME").filter Path.isAbsolute
  home.map fun home =>
    Path.join (Path.join (settings.getD (Path.join home ".config")) "secilc") "config.toml"

/-- Where the settings of a project are. -/
def Environment.places (env : Environment) (project : String) : Configuration.Places :=
  { project, user := env.userFile?, entries := env.entries }

/-- Settings with those of the command line laid over them. -/
def Level.configure (l : Level) (c : Configuration) : Configuration :=
  let o := c.options
  let mls := (l.value? .mls).bind flag?
  let handleUnknown := (l.value? .handleUnknown).bind HandleUnknown.ofName?
  { c with options := {
    version := ((l.value? .policyVersion).bind version?).getD o.version
    target := ((l.value? .target).bind Target.ofName?).getD o.target
    overrides := {
      mls := mls <|> o.overrides.mls
      handleUnknown := handleUnknown <|> o.overrides.handleUnknown }
    qualifiedNames := o.qualifiedNames || l.has .qualifiedNames
    disableNeverAllow := o.disableNeverAllow || l.has .disableNeverAllow
    multipleDecls := o.multipleDecls || l.has .multipleDecls
    expandAttributes := o.expandAttributes || l.has .expandAttributes } }

/-- How much is said, by how often more was asked for. -/
def loudness (level : Severity) : Nat → Severity
  | 0 => level
  | 1 => level.max .warn
  | _ => .info

/-- The text that has been written so far. -/
structure Screen where
  stdout : String := ""
  stderr : String := ""

/-- A command at work. -/
abbrev Action (m : Type → Type) := ExceptT Failure (StateT Screen m)

section

variable {m : Type → Type} [Monad m] [FileSystem m]

/-- Writes text for the user. -/
def print (text : String) : Action m Unit :=
  modify fun s => { s with stdout := s.stdout ++ text }

/-- Shows the messages that the level lets through. -/
def tell (level : Severity) (messages : List Message) : Action m Unit :=
  modify fun s =>
    { s with stderr := s.stderr ++ String.join ((Message.visible level messages).map messageLine) }

/-- Asks the file system. -/
def ask (question : m α) : Action m α :=
  liftM (liftM question : StateT Screen m α)

/-- Goes on with a result, or fails with what was being done and its causes. -/
def need (doing : String) (causes : ε → List String) : Except ε α → Action m α
  | .ok a => return a
  | .error e => throw ⟨doing :: causes e⟩

/-- The settings of a command that compiles. -/
def settings (env : Environment) (l : Level) : Action m Configuration := do
  let c ← match l.value? .config with
    | some path =>
      let content ← ask (FileSystem.read path)
      need s!"Failed to load configuration from {path}" ConfigFault.causes
        (Configuration.ofFile path content)
    | none =>
      let c ← ask (Configuration.load (env.places env.directory))
      need "Failed to load configuration" ConfigFault.causes c
  return l.configure c

/-- A compiler with all sources read. -/
def readSources (c : Configuration) (level : Severity) (paths : List String) : Action m Compiler :=
  paths.foldlM (fun compiler path => do
    let content ← ask (FileSystem.read path)
    let ((outcome, messages), compiler) := compiler.addFile path content
    tell level messages
    need s!"Failed to parse {path}" Diagnostic.causes outcome
    return compiler) { options := c.options }

/-- Shows the messages of a compilation and goes on with its result. -/
def finish (level : Severity) (doing : String) (report : Report α) : Action m α := do
  let (outcome, messages) := report.outcome
  tell level messages
  need doing Diagnostic.causes outcome

/-- Makes way for a file: it must not be a directory, and its own directory must be
there. -/
def prepare (path : String) : Action m Unit := do
  if ← ask (FileSystem.isDirectory path) then
    throw ⟨[s!"Failed to write {path}: is a directory"]⟩
  if let some above := Path.parent? path then
    let made ← ask (FileSystem.makeDirectories (above.length + 1) above)
    need s!"Failed to create {above}" (fun f => [f.message]) made

/-- Puts a file in place. -/
def place (path : String) (bytes : Bytes) : Action m Unit := do
  let placed ← ask (FileSystem.replace path bytes)
  need s!"Failed to write {path}"
    (fun f => [s!"failed to persist temporary file: {f.message}", f.message]) placed

/-- Writes files, none of them before there is room for all. -/
def writeAll (files : List (String × Bytes)) : Action m Unit := do
  for (path, _) in files do prepare path
  for (path, bytes) in files do place path bytes

/-- Compiles and writes the policy and its file contexts. -/
def compile (env : Environment) (call : Call) : Action m Unit := do
  let l := call.level
  let c ← settings env l
  let level := loudness c.level call.verbosity
  let compiler ← readSources c level l.paths
  let compiled ← finish level "Failed to compile policy" compiler.compile
  let policy := (l.value? .output).getD c.policyPath
  let contexts := (l.value? .fileContexts).getD c.fileContexts
  writeAll [(policy, compiled.policy), (contexts, Text.toUtf8 compiled.fileContexts)]
  print s!"✓ Compiled {l.paths.length} file(s) into {policy}\n"
  print s!"  Policy version: {c.options.version.number}\n"
  print s!"  MLS: {compiled.settings.mls}\n"
  print s!"  File contexts: {contexts}\n"

/-- Checks and writes nothing. -/
def check (env : Environment) (call : Call) : Action m Unit := do
  let l := call.level
  let c ← settings env l
  let level := loudness c.level call.verbosity
  let compiler ← readSources c level l.paths
  let _ ← finish level "Policy check failed" compiler.check
  print s!"✓ {l.paths.length} file(s) passed all checks\n"

/-- Compiles and shows the statistics. -/
def stats (env : Environment) (call : Call) : Action m Unit := do
  let l := call.level
  let c ← settings env l
  let level := loudness c.level call.verbosity
  let compiler ← readSources c level l.paths
  let compiled ← finish level "Failed to compile policy" compiler.compile
  if l.value? .format = some "json" then print ((statsDocument compiled.stats).json 0 ++ "\n")
  else print (table (statsRows compiled.stats) ++ "\n")

/-- Shows the header of a policy file. -/
def info (call : Call) : Action m Unit := do
  let l := call.level
  let path := l.paths.headD ""
  let content ← ask (FileSystem.read path)
  let bytes ← need s!"Failed to read {path}" (fun f => [f.message]) content
  let header ← need s!"{path} is not a binary policy" (fun e => [e.message]) (Header.read bytes)
  if l.value? .format = some "json" then print ((headerDocument header).json 0 ++ "\n")
  else print (table (headerRows header) ++ "\n")

/-- Shows the settings of a project. -/
def showConfiguration (env : Environment) (call : Call) : Action m Unit := do
  let l := call.level
  let places := env.places ((l.value? .project).getD ".")
  let c ← ask (Configuration.load places)
  let c ← need "Failed to load configuration" ConfigFault.causes c
  match l.value? .format with
  | some "json" => print (c.document.json 0 ++ "\n")
  | some "toml" => print (c.toml ++ "\n")
  | _ => print (configurationText c (← ask places.existing))

/-- Runs a command that was called in full. -/
def perform (env : Environment) (call : Call) : Action m Unit :=
  match call.level.command with
  | .version => print (versionText env.machine)
  | .compile => compile env call
  | .check => check env call
  | .stats => stats env call
  | .info => info call
  | .showConfig => showConfiguration env call
  | .root | .config => print usageText

/-- Runs the command line. Misuse ends with code 2, a failure with code 1. -/
def run (env : Environment) (args : List String) : m Outcome := do
  match parse args with
  | .error .misuse => return { code := 2, stderr := usageText }
  | .error (.showVersion name) => return { stdout := s!"{name} {version}\n" }
  | .error (.showHelp _) => return { stdout := usageText }
  | .ok call =>
    let (result, screen) ← (perform env call).run.run {}
    match result with
    | .ok () => return { stdout := screen.stdout, stderr := screen.stderr }
    | .error failure =>
      return { code := 1, stdout := screen.stdout, stderr := screen.stderr ++ failure.text }

end

end CilPolicy.CommandLine
