import CilPolicy.Database.Resolve
import CilPolicy.FileContexts
import CilPolicy.Kernel.Encoding
import CilPolicy.Kernel.Stats
import CilPolicy.Lowering.Policy
import CilPolicy.Statement.Build
import CilPolicy.Text.Utf8

/-!
The compiler: it gathers sources in one parse tree and compiles them as one policy. The
sources share all declarations.
-/

namespace CilPolicy

/-- Switches of the compiler. -/
structure CompilerOptions where
  version : FormatVersion := .latest
  target : Target := .selinux
  /-- Overrides what the policy says of levels and unknown permissions. -/
  overrides : SettingOverrides := {}
  /-- Names may contain dots. -/
  qualifiedNames : Bool := false
  disableNeverAllow : Bool := false
  /-- Types, attributes and labels may be given more than once. -/
  multipleDecls : Bool := false
  expandAttributes : Bool := false
deriving DecidableEq, Repr, Inhabited

def CompilerOptions.lowering (o : CompilerOptions) : LoweringOptions where
  version := o.version
  target := o.target
  checkNeverAllow := !o.disableNeverAllow
  expandAttributes := o.expandAttributes

/-- What a compilation produces. -/
structure CompiledPolicy where
  policy : Bytes
  fileContexts : String
  settings : Settings
  stats : List (String × StatValue)

/-- The sources read so far. -/
structure Compiler where
  options : CompilerOptions := {}
  tree : ParseTree := {}
  /-- Number of sources without a fault. -/
  sources : Nat := 0
deriving Inhabited

/-- A policy that has passed every check. -/
structure LoweredPolicy where
  db : EvaluatedDatabase
  settings : Settings
  kernel : KernelPolicy

namespace Compiler

/-- Reads a source; the path is for messages only. -/
def addSource (c : Compiler) (path source : String) :
    (Except Diagnostic Unit × List Message) × Compiler :=
  let (outcome, tree) := c.tree.parse path source
  let added := match outcome.1 with
    | .ok () => 1
    | .error _ => 0
  (outcome, { c with tree, sources := c.sources + added })

/-- Reads a source from what a file holds, or from why it holds nothing. -/
def addFile (c : Compiler) (path : String) (content : Except FileFault Bytes) :
    (Except Diagnostic Unit × List Message) × Compiler :=
  match content with
  | .error fault => ((.error (.unreadable path fault), []), c)
  | .ok bytes =>
    match Text.ofUtf8? bytes with
    | some source => c.addSource path source
    | none => ((.error (.unreadable path .notText), []), c)

/-- Takes the sources through all checks. -/
def lower (c : Compiler) : Report LoweredPolicy := do
  let o := c.options
  if c.sources = 0 then throw (.violation .noFiles none)
  Report.info "Building AST from Parse Tree"
  let statements ← c.tree.build o.qualifiedNames
  Report.info "Resolving AST"
  let db ← Database.resolve o.multipleDecls statements
  let db ← db.order
  db.preVerify
  Report.info "Qualifying Names"
  let db ← db.evaluate o.multipleDecls
  let settings ← db.verify o.overrides
  Report.info "Building policy binary"
  let kernel ← db.lower settings o.lowering
  return { db, settings, kernel }

/-- Checks the sources without writing a policy. -/
def check (c : Compiler) : Report Settings := do
  let lowered ← c.lower
  return lowered.settings

/-- Compiles the sources. -/
def compile (c : Compiler) : Report CompiledPolicy := do
  let lowered ← c.lower
  let policy ← lowered.kernel.encode.mapError Diagnostic.kernel
  let fileContexts ← lowered.db.fileContexts lowered.settings.mls
  return { policy, fileContexts, settings := lowered.settings, stats := lowered.kernel.stats }

end Compiler

end CilPolicy
