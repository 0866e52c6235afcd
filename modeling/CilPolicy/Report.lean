import CilPolicy.Diagnostic
import CilPolicy.Log

/-!
Computations that may be refused and that leave messages. The messages written
before a refusal are kept.
-/

namespace CilPolicy

/-- A computation with messages, which a diagnostic may end. -/
abbrev Report := ExceptT Diagnostic (StateM (List Message))

namespace Report

/-- Leaves a message. -/
def say (severity : Severity) (text : String) : Report Unit :=
  modify fun messages => messages ++ [⟨severity, text⟩]

def info (text : String) : Report Unit := say .info text

def warn (text : String) : Report Unit := say .warn text

def error (text : String) : Report Unit := say .error text

/-- Fails with the first of the diagnostics, if there is one, after leaving the
others as messages. -/
def reject : List Diagnostic → Report Unit
  | [] => pure ()
  | first :: others => do
    others.forM fun d => error d.message
    throw first

/-- The result and all messages. -/
def outcome (report : Report α) : Except Diagnostic α × List Message :=
  report.run.run []

end Report

namespace ParseTree

/-- Adds the tree of a file; the tree as far as it could be read is there even when
the file is refused. -/
def parse (tree : ParseTree) (path source : String) : (Except Diagnostic Unit × List Message) × ParseTree :=
  let (tree, fault) := tree.add path source
  let report : Report Unit := do
    Report.info s!"Parsing {path}"
    match fault with
    | none => return ()
    | some (fault, line) => throw (.parse fault line path)
  (report.outcome, tree)

/-- The tree of files that are all well formed. -/
def parseAll (files : List (String × String)) : Report ParseTree :=
  files.foldlM (fun tree (path, source) => do
    let ((result, messages), tree) := tree.parse path source
    modify (· ++ messages)
    match result with
    | .ok () => return tree
    | .error d => throw d) {}

end ParseTree

end CilPolicy
