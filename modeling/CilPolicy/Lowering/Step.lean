import CilPolicy.Report

/-!
Adding things one after the other to a table. A step may leave messages and may find
a fault; what was added before the fault stays.
-/

namespace CilPolicy

/-- The table after a step, the messages of the step and its fault, if it has one. -/
structure Step (σ : Type) where
  table : σ
  messages : List Message := []
  fault? : Option Diagnostic := none
deriving DecidableEq, Repr

namespace Step

def done (table : σ) : Step σ :=
  { table }

def fail (table : σ) (fault : Diagnostic) : Step σ :=
  { table, fault? := some fault }

/-- The step as one of a greater table. -/
def map (f : σ → τ) (s : Step σ) : Step τ :=
  ⟨f s.table, s.messages, s.fault?⟩

/-- Adds items until one has a fault. -/
def each (add : σ → α → Step σ) (table : σ) : List α → Step σ
  | [] => done table
  | a :: rest =>
    let first := add table a
    match first.fault? with
    | some _ => first
    | none =>
      let others := each add first.table rest
      { others with messages := first.messages ++ others.messages }

/-- The table after all items, their messages and all faults. -/
structure Gathered (σ : Type) where
  table : σ
  messages : List Message := []
  faults : List Diagnostic := []
deriving DecidableEq, Repr

/-- Adds all items, whatever faults they have. -/
def gather (add : σ → α → Step σ) (table : σ) : List α → Gathered σ
  | [] => { table }
  | a :: rest =>
    let first := add table a
    let others := gather add first.table rest
    ⟨others.table, first.messages ++ others.messages, first.fault?.toList ++ others.faults⟩

end Step

end CilPolicy
