import Disguise.Config.Basic
import Disguise.Diff.Basic
import Disguise.Equivalence
import Disguise.Graph.Clone
import Disguise.Syntax.Printer
import Disguise.Validity

/-!
Working on one module: transform it as the configuration says, check the outcome, and report on
what was done.
-/
namespace Disguise.Processing

structure Settings where
  config : Config := {}
  /-- Copy annotations into metadata first. -/
  tagFirst : Bool := false
  wantDiff : Bool := false

structure Report where
  file : Bytes
  funcs : Nat
  opsBefore : Nat
  opsAfter : Nat
  stats : Stats
  verified : Nat := 0

structure Result where
  report : Report
  output : Bytes
  diff : Bytes := []

inductive Failure where
  | unknownRule (name : Bytes)
  | invalid (d : Defect)
  | discrepancy (d : Equivalence.Discrepancy)

def Failure.message [Unicode] : Failure → Bytes
  | unknownRule name => Engine.unknownRule name
  | invalid d => text "produced invalid module: " ++ d.message
  | discrepancy d => d.message

/-- What working on a module leaves behind, also when it fails. -/
structure Record where
  log : List Log.Entry := []
  tally : Engine.Tally := {}

/-- What is said of a module that was transformed. -/
def summary (file : Bytes) (stats : Stats) : Log.Entry :=
  ⟨1, file ++ text ": " ++ Bytes.decimalNat stats.total ++ text " rewrites (" ++ stats.render ++
    text ")"⟩

variable [Unicode] [Differ]

/-- The difference between the first module and the transformed one, if it is asked for. -/
def shown (s : Settings) (g : Graph) (first : ModuleId) (output : Bytes) :
    Except Violation Bytes := do
  if s.wantDiff then
    let input ← Syntax.printModule g first
    Differ.lineDiff input output
  else pure []

/-- Checks the transformed module against the first one and puts the result together. -/
def finish [FloatUnit] (s : Settings) (g : Graph) (first m : ModuleId)
    (file : Bytes) (stats : Stats) : Choice (Except Failure Result) := do
  let output ← (Syntax.printModule g m : Except Violation Bytes)
  let runs := s.config.verifyIters
  let check ← if 0 < runs then Equivalence.check g first m runs else pure {}
  match check.discrepancy with
  | some d => pure (.error (.discrepancy d))
  | none =>
    let diff ← (shown s g first output : Except Violation Bytes)
    let report : Report :=
      { file, stats, funcs := (g.module m).funcs.length, opsBefore := g.moduleOps first
        opsAfter := g.moduleOps m, verified := check.agreed }
    pure (.ok { report, output, diff })

def process [FloatUnit] (s : Settings) (g : Graph) (m : ModuleId)
    (file : Bytes) : Choice (Except Failure Result × Record) := do
  let g := if s.tagFirst then g.tagModule m else g
  let (g, first) ← (g.cloneModule m : Except Violation _)
  let options := s.config.options
  match options.unknownRule? with
  | some name => pure (.error (.unknownRule name), {})
  | none =>
    let (engine, g, stats) ← Engine.runModule { options } g m s.config.policy.selector
    let log := engine.notices.map Notice.entry
    match g.validate m with
    | .error d => pure (.error (.invalid d), { log, tally := engine.tally })
    | .ok () =>
      let result ← finish s g first m file stats
      pure (result, { log := log ++ [summary file stats], tally := engine.tally })

end Disguise.Processing
