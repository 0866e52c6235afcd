import CilPolicy.Compiler
import CilPolicy.Proofs.Database.Given
import CilPolicy.Proofs.Lowering.Contexts
import CilPolicy.Proofs.Lowering.Writable
import CilPolicy.Proofs.Verification.Inside

/-!
# Checking and compiling

A compilation takes the sources through the same stages as a check and then writes the policy and
the text of the file contexts. The text can always be written, and so can the policy, with one
exception: a memory range that needs 64-bit addresses passes the check for a version that has none.
-/

namespace CilPolicy

/-! ### File contexts -/

namespace EvaluatedDatabase

variable {db : EvaluatedDatabase}

/-- Every name of a context stands for a context. -/
def ContextsGiven (db : EvaluatedDatabase) : Prop :=
  ∀ id context, db.contexts.value? id = some context → context.isSome = true

/-- The range of a context that has passed the check has levels. -/
theorem Passed.evalRange_checked (passed : db.Passed) {spec : ContextSpec Id}
    (within : db.signature.RangeWithin spec.range) (checked : db.checkContext spec = .ok ()) :
    ∃ levels, db.evalRange spec.range = .ok levels := by
  obtain ⟨_, _, given⟩ := checkContext_spec checked
  cases hrange : spec.range with
  | given range =>
    obtain ⟨low, high, levels, _⟩ := given range hrange
    exact ⟨(low, high), hrange ▸ levels⟩
  | named id =>
    rw [hrange] at within
    obtain ⟨range, value⟩ := Registry.exists_value? within
    obtain ⟨low, high, levels, _⟩ := passed.ascends_declared value
    exact ⟨(low, high), levels⟩

theorem Passed.contextText_ok (passed : db.Passed) (closed : db.Closed) (filled : db.ContextsGiven)
    {context : ContextArg Id} (within : db.signature.ContextWithin context) (checked : db.Checked context)
    (mls : Bool) : ∃ text, db.contextText mls context = .ok text := by
  have known : ∃ spec, db.contextSpec? context = some spec := by
    cases context with
    | given spec => exact ⟨spec, rfl⟩
    | named id =>
      obtain ⟨value, hvalue⟩ := Registry.exists_value? within
      obtain ⟨spec, rfl⟩ := Option.isSome_iff_exists.mp (filled id value hvalue)
      exact ⟨spec, Option.join_eq_some_iff.mpr hvalue⟩
  obtain ⟨spec, hspec⟩ := known
  obtain ⟨levels, hlevels⟩ :=
    passed.evalRange_checked (closed.contextSpec within hspec).range (checked spec hspec)
  rw [contextText, hspec]
  cases mls with
  | false => exact ⟨_, rfl⟩
  | true =>
    dsimp only
    rw [hlevels]
    exact ⟨_, rfl⟩

/-- The text of the file contexts of a policy that has passed every check can be written. -/
theorem Passed.fileContexts_ok (passed : db.Passed) (closed : db.Closed) (filled : db.ContextsGiven)
    (mls : Bool) : ∃ text, db.fileContexts mls = .ok text := by
  have lines : ∀ x ∈ db.labels.files, ∃ line, db.fileContextLine mls x = .ok line := by
    intro x hx
    rw [fileContextLine]
    cases hcontext : x.context with
    | none => exact ⟨_, rfl⟩
    | some context =>
      obtain ⟨text, run⟩ := passed.contextText_ok closed filled (closed.within.labels.files x hx context hcontext)
        (passed.labels_checked.files x hx context hcontext) mls
      dsimp only
      rw [run]
      exact ⟨_, rfl⟩
  obtain ⟨texts, run⟩ := Except.exists_mapM lines
  rw [fileContexts, run]
  exact ⟨_, rfl⟩

end EvaluatedDatabase

/-! ### Outcomes -/

/-- A computation without messages behind a report changes its result only. -/
theorem Report.outcome_bind_lift {α β : Type} (r : Report α) (f : α → Except Diagnostic β) :
    (r >>= fun a => (liftM (f a) : Report β)).outcome = (r.outcome.1 >>= f, r.outcome.2) := by
  rw [outcome, outcome, ExceptT.run_bind]
  change StateT.run (r.run >>= _) [] = _
  rw [StateT.run_bind]
  cases r.run.run [] with
  | mk result messages =>
    cases result with
    | error d => rfl
    | ok a => rfl

theorem Database.ofStatements_of_resolve {repeats : Bool} {statements : List Statement} {resolved : Database}
    (run : (resolve repeats statements).Yields resolved) : ofStatements repeats statements = .ok resolved := by
  obtain ⟨_, lifted, run⟩ := Report.yields_bind run
  obtain ⟨_, _, run⟩ := Report.yields_bind run
  cases Report.yields_pure run
  exact Report.yields_lift lifted

namespace Compiler

variable {c : Compiler} {lowered : LoweredPolicy}

/-- What a compilation produces from a policy that has passed every check. -/
def finish (lowered : LoweredPolicy) : Except Diagnostic CompiledPolicy := do
  let policy ← lowered.kernel.encode.mapError Diagnostic.kernel
  let fileContexts ← lowered.db.fileContexts lowered.settings.mls
  return { policy, fileContexts, settings := lowered.settings, stats := lowered.kernel.stats }

theorem check_outcome (c : Compiler) :
    c.check.outcome = (c.lower.outcome.1.map (·.settings), c.lower.outcome.2) := by
  refine (Report.outcome_bind_lift c.lower fun lowered => .ok lowered.settings).trans ?_
  cases c.lower.outcome.1 <;> rfl

theorem compile_outcome (c : Compiler) :
    c.compile.outcome = (c.lower.outcome.1 >>= finish, c.lower.outcome.2) := by
  have same : c.compile = c.lower >>= fun lowered => (liftM (finish lowered) : Report CompiledPolicy) := by
    refine bind_congr fun lowered => ?_
    rw [finish]
    cases lowered.kernel.encode.mapError Diagnostic.kernel with
    | error d => rfl
    | ok policy =>
      cases lowered.db.fileContexts lowered.settings.mls with
      | error d => rfl
      | ok fileContexts => rfl
  rw [same, Report.outcome_bind_lift]

/-! ### The policy that is compiled -/

/-- What is compiled is what the lowered policy is encoded to. -/
theorem exists_encoded {compiled : CompiledPolicy} (run : c.compile.outcome.1 = .ok compiled) :
    ∃ lowered, c.lower.outcome.1 = .ok lowered ∧ lowered.kernel.encode = .ok compiled.policy := by
  rw [compile_outcome] at run
  obtain ⟨lowered, lower, finished⟩ := bind_eq_ok.mp run
  obtain ⟨policy, encoded, finished⟩ := bind_eq_ok.mp finished
  obtain ⟨_, _, done⟩ := bind_eq_ok.mp finished
  cases done
  exact ⟨lowered, lower, mapError_eq_ok.mp encoded⟩

/-- What is lowered looks up nothing that is not declared, and its contexts are given. -/
theorem closed_of_lower (run : c.lower.Yields lowered) : lowered.db.Closed ∧ lowered.db.ContextsGiven := by
  obtain ⟨_, _, _, _, resolve, order, _, evaluate, _⟩ := exists_stages run
  have resolve := Database.ofStatements_of_resolve resolve
  obtain ⟨rfl, _⟩ := Database.order_spec order
  obtain ⟨_, same⟩ := OrderedDatabase.evaluate_spec evaluate
  constructor
  · rw [same]
    exact (Database.closed_of_ofStatements resolve).evaluated
  · intro id context h
    rw [same] at h
    exact Database.contexts_given resolve h

/-- The sources come to a policy with a labeled memory range that needs 64-bit addresses, for the
target that has such ranges and for a version that has no such addresses. -/
def TooWide (c : Compiler) : Prop :=
  c.options.target = .xen ∧ c.options.version.supports .wideMemory = false ∧
    ∃ lowered, c.lower.outcome.1 = .ok lowered ∧
      ∃ x ∈ lowered.db.labels.ioMemory, wordBound ≤ x.selector.low ∨ wordBound ≤ x.selector.high

theorem tooWide_iff (run : c.lower.outcome.1 = .ok lowered) : c.TooWide ↔ lowered.kernel.TooWide := by
  obtain ⟨_, lower⟩ := stages_of_lower (Report.yields_of_outcome run)
  obtain ⟨target, version⟩ := Lowering.form_of_policy lower
  have built := Lowering.built_of_policy lower
  rw [TooWide, KernelPolicy.TooWide, target, version]
  refine and_congr_right fun xen => and_congr_right fun _ => ?_
  refine Iff.trans ?_ (Lowering.exists_ioMemory built.objects xen).symm
  constructor
  · rintro ⟨_, other, wide⟩
    cases run.symm.trans other
    exact wide
  · exact fun wide => ⟨lowered, run, wide⟩

theorem finish_ok (run : c.lower.outcome.1 = .ok lowered) (writable : c.options.version.writable = true)
    (fits : ¬ c.TooWide) : ∃ compiled, finish lowered = .ok compiled ∧ compiled.settings = lowered.settings := by
  obtain ⟨passed, lower⟩ := stages_of_lower (Report.yields_of_outcome run)
  obtain ⟨closed, filled⟩ := closed_of_lower (Report.yields_of_outcome run)
  obtain ⟨_, version⟩ := Lowering.form_of_policy lower
  have rules := (Lowering.built_of_policy lower).rulesWritable version
  rw [tooWide_iff run] at fits
  obtain ⟨bytes, encoded⟩ := KernelPolicy.encode_ok (p := lowered.kernel) (version ▸ writable) rules fits
  obtain ⟨text, texted⟩ := passed.fileContexts_ok closed filled lowered.settings.mls
  rw [finish, encoded, texted]
  exact ⟨_, rfl, rfl⟩

theorem finish_error (run : c.lower.outcome.1 = .ok lowered) (writable : c.options.version.writable = true)
    (wide : c.TooWide) : ∃ address,
      finish lowered = .error (.kernel (.version c.options.version.number (.wideAddress address))) := by
  obtain ⟨_, lower⟩ := stages_of_lower (Report.yields_of_outcome run)
  obtain ⟨_, version⟩ := Lowering.form_of_policy lower
  have rules := (Lowering.built_of_policy lower).rulesWritable version
  rw [tooWide_iff run] at wide
  obtain ⟨address, refused⟩ := KernelPolicy.encode_error (p := lowered.kernel) (version ▸ writable) rules wide
  refine ⟨address, ?_⟩
  rw [finish, refused, version]
  rfl

/-- For a version that is written, a compilation fails where the check fails, in the same way, and
succeeds where it succeeds, with the same settings and messages, unless a memory range is too wide. -/
theorem compile_agrees_iff (writable : c.options.version.writable = true) :
    (∀ d messages, c.check.outcome = (.error d, messages) → c.compile.outcome = (.error d, messages)) ∧
      ∀ settings messages, c.check.outcome = (.ok settings, messages) →
        (¬ c.TooWide → ∃ compiled, c.compile.outcome = (.ok compiled, messages) ∧ compiled.settings = settings) ∧
        (c.TooWide → ∃ address, c.compile.outcome =
          (.error (.kernel (.version c.options.version.number (.wideAddress address))), messages)) := by
  rw [check_outcome, compile_outcome]
  cases run : c.lower.outcome.1 with
  | error d =>
    refine ⟨fun d' messages same => ?_, fun settings messages same => ?_⟩
    · cases same
      rfl
    · cases same
  | ok lowered =>
    refine ⟨fun d messages same => ?_, fun settings messages same => ?_⟩
    · cases same
    · cases same
      refine ⟨fun fits => ?_, fun wide => ?_⟩
      · obtain ⟨compiled, finished, settings⟩ := finish_ok run writable fits
        exact ⟨compiled, congrArg (·, c.lower.outcome.2) finished, settings⟩
      · obtain ⟨address, refused⟩ := finish_error run writable wide
        exact ⟨address, congrArg (·, c.lower.outcome.2) refused⟩

/-! ### A small policy -/

/-- A list with some more lists behind its words. -/
def listNode (words : List String) (lists : List Node) : Node :=
  .list {} (words.map (.leaf {}) ++ lists)

def wordsNode (words : List String) : Node :=
  listNode words []

def rangeNode (low high : String) : Node :=
  listNode [] [wordsNode [low], wordsNode [high]]

/-- The context of the only user, role and type. -/
def contextNode (low high : String) : Node :=
  listNode ["u", "r", "a"] [rangeNode low high]

/-- The only permission, for a source to the only type. -/
def allowNode (source : String) : Node :=
  listNode ["allow", source, "a"] [listNode ["f"] [wordsNode ["p"]]]

/-- A compiler that has read a policy with one class, one role and one type, and some lists more. -/
def small (options : CompilerOptions) (more : List Node) : Compiler where
  options
  tree := ⟨[listNode [Node.sourceTag, "cil", "1", "policy.cil"]
    ([listNode ["class", "f"] [wordsNode ["p"]], listNode ["classorder"] [wordsNode ["f"]],
      wordsNode ["sid", "k"], listNode ["sidorder"] [wordsNode ["k"]],
      wordsNode ["sensitivity", "s"], listNode ["sensitivityorder"] [wordsNode ["s"]],
      wordsNode ["user", "u"], wordsNode ["role", "r"], wordsNode ["type", "a"],
      wordsNode ["userrole", "u", "r"], wordsNode ["roletype", "r", "a"],
      listNode ["userlevel", "u"] [wordsNode ["s"]], listNode ["userrange", "u"] [rangeNode "s" "s"],
      listNode ["sidcontext", "k"] [contextNode "s" "s"]] ++ more)]⟩
  sources := 1

/-- The policy has a memory range that begins at the first address of more than 32 bits, and the version
is the last one without such addresses. -/
def wideCompiler : Compiler :=
  small { target := .xen, version := ⟨29⟩ } [allowNode "a", listNode ["iomemcon", "0x100000000"] [contextNode "s" "s"]]

def isWide (lowered : LoweredPolicy) : Bool :=
  lowered.db.labels.ioMemory.any fun x => wordBound ≤ x.selector.low

set_option maxRecDepth 10000 in
theorem wideCompiler_lowers : wideCompiler.lower.outcome.1.toOption.any isWide = true := by
  decide +kernel

/-- The check of a memory range that is too wide succeeds, and the compilation fails. -/
theorem wide_memory_disagrees : ∃ settings d messages,
    wideCompiler.check.outcome = (.ok settings, messages) ∧
      wideCompiler.compile.outcome = (.error d, messages) := by
  have lowers := wideCompiler_lowers
  cases run : wideCompiler.lower.outcome.1 with
  | error d =>
    rw [run] at lowers
    cases lowers
  | ok lowered =>
    rw [run] at lowers
    obtain ⟨x, hx, low⟩ := List.any_eq_true.mp (show isWide lowered = true from lowers)
    have wide : wideCompiler.TooWide := ⟨rfl, rfl, lowered, run, x, hx, .inl (of_decide_eq_true low)⟩
    have checked : wideCompiler.check.outcome = (.ok lowered.settings, wideCompiler.lower.outcome.2) := by
      rw [check_outcome, run]
      rfl
    obtain ⟨_, agrees⟩ := compile_agrees_iff (c := wideCompiler) rfl
    obtain ⟨address, refused⟩ := (agrees _ _ checked).2 wide
    exact ⟨_, _, _, checked, refused⟩

end Compiler

end CilPolicy
