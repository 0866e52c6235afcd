import CilPolicy.Compiler
import CilPolicy.Document
import CilPolicy.Files.Path
import CilPolicy.Toml.Quoted

/-!
The settings of a compilation: options of the compiler, the paths of its outputs and how
much it says.
-/

namespace CilPolicy

/-- Settings with their values when nothing else is said. -/
structure Configuration where
  options : CompilerOptions := {}
  /-- Where the policy goes; a name made from the version when unset. -/
  policyFile : Option String := none
  fileContexts : String := "file_contexts"
  level : Severity := .error
deriving DecidableEq, Repr, Inhabited

/-- Why settings cannot be had. -/
inductive ConfigFault where
  | unreadable (path : String) (fault : FileFault)
  /-- One file that is no TOML or has a wrong value. -/
  | malformed (path reason : String)
  /-- A layer that is no TOML, or layers that give a wrong value. -/
  | conflict (reason : String)
  | version (number : Nat)
deriving DecidableEq, Repr

/-- The message, followed by what lies behind it. -/
def ConfigFault.causes : ConfigFault → List String
  | unreadable path fault =>
    [s!"Failed to read config file at {path}: {fault.message}", fault.message]
  | malformed path reason => [s!"Failed to parse TOML config at {path}: {reason}", reason]
  | conflict reason => [s!"Failed to merge configuration: {reason}", reason]
  | version number =>
    [s!"Invalid configuration: policy_version must be between {FormatVersion.oldest} and {FormatVersion.newest}, got {number}"]

def ConfigFault.message (fault : ConfigFault) : String :=
  fault.causes.headD ""

namespace Configuration

/-- Settings of a version that can be written. -/
def validated (c : Configuration) : Except ConfigFault Configuration :=
  if c.options.version.writable then .ok c else .error (.version c.options.version.number)

/-- Where the policy goes. -/
def policyPath (c : Configuration) : String :=
  c.policyFile.getD s!"policy.{c.options.version.number}"

/-- The paths of the outputs as seen from a directory. -/
def resolved (c : Configuration) (base : String) : Configuration :=
  { c with
    policyFile := c.policyFile.map (Path.join base)
    fileContexts := Path.join base c.fileContexts }

/-- The settings by section, unset ones included. -/
def document (c : Configuration) : Document :=
  let o := c.options
  .record [
    ("compiler", .record [
      ("policy_version", o.version.number), ("target", o.target.name),
      ("mls", .ofOption .flag o.overrides.mls),
      ("handle_unknown", .ofOption (fun h => .text h.name) o.overrides.handleUnknown),
      ("qualified_names", o.qualifiedNames), ("disable_neverallow", o.disableNeverAllow),
      ("multiple_decls", o.multipleDecls), ("expand_attributes", o.expandAttributes)]),
    ("output", .record [
      ("policy_file", .ofOption .text c.policyFile), ("file_contexts", c.fileContexts)]),
    ("log", .record [("level", c.level.name)])]

/-- The settings as a TOML document, without unset ones. -/
def toml (c : Configuration) : String :=
  let o := c.options
  let line (key value : String) : String := key ++ " = " ++ value ++ "\n"
  let flag (key : String) (b : Bool) : String := line key (toString b)
  let text (key value : String) : String := line key (Toml.quote value)
  "[compiler]\n" ++ line "policy_version" (toString o.version.number)
    ++ text "target" o.target.name
    ++ ((o.overrides.mls.map (flag "mls")).getD "")
    ++ ((o.overrides.handleUnknown.map fun h => text "handle_unknown" h.name).getD "")
    ++ flag "qualified_names" o.qualifiedNames
    ++ flag "disable_neverallow" o.disableNeverAllow
    ++ flag "multiple_decls" o.multipleDecls
    ++ flag "expand_attributes" o.expandAttributes
    ++ "\n[output]\n" ++ ((c.policyFile.map (text "policy_file")).getD "")
    ++ text "file_contexts" c.fileContexts
    ++ "\n[log]\n" ++ text "level" c.level.name

end Configuration

end CilPolicy
