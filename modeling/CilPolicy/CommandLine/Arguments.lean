import CilPolicy.Setting
import CilPolicy.Text.Number
import CilPolicy.Version

/-!
The arguments of the command line. Options stand before or after the other arguments of a
command and are given once, the count of `-v` excepted; short ones may be written together.
Behind `--` nothing is an option.
-/

namespace CilPolicy.CommandLine

/-- The commands; `root` and `config` need a further command. -/
inductive Command where
  | root
  | version
  | compile
  | check
  | info
  | stats
  | config
  | showConfig
deriving DecidableEq, Repr

/-- What an option is about. -/
inductive OptionName where
  | verbose
  | noColor
  | showVersion
  | showHelp
  | config
  | policyVersion
  | target
  | mls
  | handleUnknown
  | qualifiedNames
  | disableNeverAllow
  | multipleDecls
  | expandAttributes
  | output
  | fileContexts
  | format
  | project
deriving DecidableEq, Repr

namespace OptionName

/-- The word behind two dashes. -/
def long : OptionName → String
  | verbose => "verbose"
  | noColor => "no-color"
  | showVersion => "version"
  | showHelp => "help"
  | config => "config"
  | policyVersion => "policyvers"
  | target => "target"
  | mls => "mls"
  | handleUnknown => "handle-unknown"
  | qualifiedNames => "qualified-names"
  | disableNeverAllow => "disable-neverallow"
  | multipleDecls => "multiple-decls"
  | expandAttributes => "expand-attributes"
  | output => "output"
  | fileContexts => "filecontexts"
  | format => "format"
  | project => "project"

/-- The letter behind one dash. -/
def short? : OptionName → Option Char
  | verbose => some 'v'
  | showVersion => some 'V'
  | showHelp => some 'h'
  | policyVersion => some 'c'
  | target => some 't'
  | mls => some 'M'
  | handleUnknown => some 'U'
  | qualifiedNames => some 'Q'
  | disableNeverAllow => some 'N'
  | multipleDecls => some 'm'
  | output => some 'o'
  | fileContexts => some 'f'
  | project => some 'p'
  | noColor | config | expandAttributes | format => none

/-- The option has a value. -/
def hasValue : OptionName → Bool
  | config | policyVersion | target | mls | handleUnknown | output | fileContexts | format
  | project => true
  | _ => false

end OptionName

/-- A version of the format by its number. -/
def version? (word : String) : Option FormatVersion :=
  ((Text.decimal? 0x8000000000000000 word).map FormatVersion.mk).filter (·.writable)

def flag? : String → Option Bool
  | "true" => some true
  | "false" => some false
  | _ => none

/-- The option takes this value. -/
def OptionName.accepts (value : String) : OptionName → Bool
  | policyVersion => (version? value).isSome
  | target => (Target.ofName? value).isSome
  | mls => (flag? value).isSome
  | handleUnknown => (HandleUnknown.ofName? value).isSome
  | config | output | fileContexts | project => !value.isEmpty
  | _ => true

namespace Command

/-- The word that calls the command. -/
def word : Command → String
  | root => "secilc"
  | version => "version"
  | compile => "compile"
  | check => "check"
  | info => "info"
  | stats => "stats"
  | config => "config"
  | showConfig => "show"

/-- The commands under a command. -/
def children : Command → List Command
  | root => [version, compile, check, info, stats, config]
  | config => [showConfig]
  | _ => []

/-- Options of the commands that compile. -/
def compilerOptions : List OptionName :=
  [.config, .policyVersion, .target, .mls, .handleUnknown, .qualifiedNames, .disableNeverAllow,
    .multipleDecls, .expandAttributes]

/-- The options of a command, those of every command included. -/
def options (c : Command) : List OptionName :=
  [.verbose, .noColor, .showVersion, .showHelp] ++ match c with
    | compile => compilerOptions ++ [.output, .fileContexts]
    | check => compilerOptions
    | stats => compilerOptions ++ [.format]
    | info => [.format]
    | showConfig => [.project, .format]
    | root | version | config => []

/-- A command takes no paths, one or more. -/
def takesPath (c : Command) (given : Nat) : Bool :=
  match c with
  | compile | check | stats => true
  | info => given = 0
  | _ => false

/-- A command that has the paths it needs. -/
def satisfied (c : Command) (given : Nat) : Bool :=
  match c with
  | compile | check | stats | info => 0 < given
  | version | showConfig => true
  | root | config => false

end Command

/-- Options and paths given at one command. -/
structure Level where
  command : Command
  options : List (OptionName × String) := []
  paths : List String := []
deriving Repr

/-- Why no command is run. -/
inductive Stop where
  | misuse
  | showVersion (name : String)
  | showHelp (name : String)
deriving DecidableEq, Repr

namespace Level

def count (l : Level) (name : OptionName) : Nat :=
  l.options.countP (·.1 = name)

def has (l : Level) (name : OptionName) : Bool :=
  0 < l.count name

def value? (l : Level) (name : OptionName) : Option String :=
  l.options.lookup name

/-- Takes an option in; `name` is how the command is called. -/
def option (l : Level) (name : String) (o : OptionName) (value : String) : Except Stop Level :=
  match o with
  | .showVersion => .error (.showVersion name)
  | .showHelp => .error (.showHelp name)
  | .verbose => .ok { l with options := l.options ++ [(o, value)] }
  | _ =>
    if l.has o || !o.accepts value then .error .misuse
    else .ok { l with options := l.options ++ [(o, value)] }

def path (l : Level) (path : String) : Except Stop Level :=
  if l.command.takesPath l.paths.length && !path.isEmpty then
    .ok { l with paths := l.paths ++ [path] }
  else .error .misuse

/-- Takes options written together. The answer has the option that still needs a value. -/
def letters (l : Level) (name : String) : List Char → Except Stop (Level × Option OptionName)
  | [] => .ok (l, none)
  | c :: rest => do
    match l.command.options.find? (·.short? = some c) with
    | none => throw .misuse
    | some o =>
      if !o.hasValue then letters (← l.option name o "") name rest
      else
        match rest with
        | [] => return (l, some o)
        | '=' :: value => return (← l.option name o (String.ofList value), none)
        | value => return (← l.option name o (String.ofList value), none)

/-- Takes an option by its word. The answer has the option that still needs a value. -/
def word (l : Level) (name : String) (chars : List Char) : Except Stop (Level × Option OptionName) := do
  let long := chars.takeWhile (· != '=')
  let attached := chars.drop long.length
  match l.command.options.find? (·.long = String.ofList long) with
  | none => throw .misuse
  | some o =>
    match o.hasValue, attached with
    | true, [] => return (l, some o)
    | true, _ :: value => return (← l.option name o (String.ofList value), none)
    | false, [] => return (← l.option name o "", none)
    | false, _ => throw .misuse

end Level

/-- The argument is an option or more. -/
def isOption (arg : String) : Bool :=
  match arg.toList with
  | '-' :: _ :: _ => true
  | _ => false

/-- The command of a word under a command. -/
def Command.child? (c : Command) (word : String) : Option Command :=
  c.children.find? (·.word = word)

/-- Asks for the help of a command by the words that lead to it. -/
def helpOf (name : String) : Command → List String → Stop
  | _, [] => .showHelp name
  | c, word :: rest =>
    match c.child? word with
    | some child => helpOf (name ++ "-" ++ word) child rest
    | none => .misuse

/-- The levels of the commands, the called one first. `name` is how the command is called,
`closed` says that no more options come. -/
def levels (name : String) (closed : Bool) (done : List Level) (l : Level) :
    List String → Except Stop (List Level)
  | [] => if l.command.satisfied l.paths.length then .ok (l :: done) else .error .misuse
  | arg :: rest => do
    if !closed && arg = "--" then levels name true done l rest
    else if !closed && isOption arg then
      let (l, waiting) ← match arg.toList with
        | '-' :: '-' :: chars => l.word name chars
        | chars => l.letters name (chars.drop 1)
      match waiting, rest with
      | none, rest => levels name closed done l rest
      | some o, value :: rest =>
        if isOption value then throw .misuse
        levels name closed done (← l.option name o value) rest
      | some _, [] => throw .misuse
    else if l.command.children.isEmpty then levels name closed done (← l.path arg) rest
    else if closed then throw .misuse
    else
      match l.command.child? arg with
      | some child => levels (name ++ "-" ++ arg) false (l :: done) { command := child } rest
      | none => throw (if arg = "help" then helpOf name l.command rest else .misuse)

/-- A command that was called in full. -/
structure Call where
  level : Level
  /-- How often more messages were asked for. -/
  verbosity : Nat
deriving Repr

/-- Reads the arguments. A count given at an inner command hides those outside. -/
def parse (args : List String) : Except Stop Call := do
  match ← levels Command.root.word false [] { command := .root } args with
  | [] => throw .misuse
  | level :: outer =>
    let counts := (level :: outer).map (·.count .verbose)
    return { level, verbosity := (counts.find? (0 < ·)).getD 0 }

end CilPolicy.CommandLine
